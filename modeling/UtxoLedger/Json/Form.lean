import UtxoLedger.Json.Parser

/-!
Types with a JSON form, and the forms that others are built from. Reading ignores fields it does not
know, and refuses a field that is repeated or missing. In the place of an object it also takes the array
of the values of its fields, in their order and without any further element.
-/

namespace UtxoLedger.Json

class Form (α : Type) where
  write : α → Value
  /-- Reads a form that has room for `levels` levels of nesting. -/
  read? : (levels : Nat) → Value → Option α

/-- The deepest nesting that is read. -/
def maxLevels : Nat := 127

def encode {α : Type} [Form α] (x : α) : String :=
  (Form.write x).text

/-- Reads a value from the text of its form. -/
def decode? {α : Type} [Form α] (text : String) : Option α := do
  Form.read? maxLevels (← parse text)

/-! ### Building blocks -/

def ofNat (n : Nat) : Value :=
  .number (.ofNat n)

def natBelow? (bound : Nat) : Value → Option Nat
  | .number n =>
    match n.toNat? with
    | some n => if n < bound then some n else none
    | none => none
  | _ => none

instance : Form UInt8 where
  write n := ofNat n.toNat
  read? _ v := (natBelow? UInt8.size v).map UInt8.ofNat

instance : Form UInt16 where
  write n := ofNat n.toNat
  read? _ v := (natBelow? UInt16.size v).map UInt16.ofNat

instance : Form UInt32 where
  write n := ofNat n.toNat
  read? _ v := (natBelow? UInt32.size v).map UInt32.ofNat

instance : Form UInt64 where
  write n := ofNat n.toNat
  read? _ v := (natBelow? UInt64.size v).map UInt64.ofNat

instance : Form String where
  write s := .string (some s)
  read? _ v :=
    match v with
    | .string s => s
    | _ => none

/-- A list as an array. -/
instance {α : Type} [Form α] : Form (List α) where
  write xs := .array (xs.map Form.write)
  read? levels v :=
    match v with
    | .array elements => elements.mapM (Form.read? (levels - 1))
    | _ => none

/-- A value that may be missing; a missing value is null. -/
instance {α : Type} [Form α] : Form (Option α) where
  write x :=
    match x with
    | some x => Form.write x
    | none => .null
  read? levels v :=
    match v with
    | .null => some none
    | v => (Form.read? levels v).map some

/-- A value that is named by a word: the word as a string, or as the only field of an object, with
nothing in it. -/
def word? (v : Value) : Option String :=
  match v with
  | .string s => s
  | .object [(name, .null)] => name
  | _ => none

def ofBytes (bytes : Bytes) : Value :=
  .string (some (Hex.encode bytes))

def bytes? (v : Value) : Option Bytes :=
  match v with
  | .string (some text) => (Hex.decode text).toOption
  | _ => none

instance {n : Nat} : Form (FixedBytes n) where
  write bytes := ofBytes bytes.toList
  read? _ v := (bytes? v).bind FixedBytes.ofList?

/-! ### Objects -/

/-- An object with fields of given names. -/
def ofFields (fields : List (String × Value)) : Value :=
  .object (fields.map fun e => (some e.1, e.2))

/-- The fields of an object, if every name is a text and no name of `known` occurs twice. The elements of
an array are the values of the fields `known`. -/
def fields? (known : List String) (v : Value) : Option (List (String × Value)) :=
  match v with
  | .array elements =>
    if elements.length = known.length then some (known.zip elements) else none
  | .object fields =>
    match fields.mapM fun e => e.1.map fun name => (name, e.2) with
    | none => none
    | some fields =>
      let names := (fields.map Prod.fst).filter known.contains
      if names.Nodup then some fields else none
  | _ => none

def field? (fields : List (String × Value)) (name : String) : Option Value :=
  fields.lookup name

/-- The value of the field that comes first when written, and the value without that field. -/
def splitField? (name : String) (v : Value) : Option (Value × Value) :=
  match v with
  | .array (first :: rest) => some (first, .array rest)
  | .object fields => do
    let first ← field? (← fields? [name] v) name
    return (first, .object (fields.filter fun e => e.1 ≠ some name))
  | _ => none

def readField? {α : Type} [Form α] (levels : Nat) (fields : List (String × Value))
    (name : String) : Option α := do
  Form.read? levels (← field? fields name)

end UtxoLedger.Json
