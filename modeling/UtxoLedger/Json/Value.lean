import UtxoLedger.Json.Number

/-!
JSON values and their compact text.
-/

namespace UtxoLedger.Json

/-- A string literal. One that escapes half of a surrogate pair stands for no text. -/
abbrev Literal := Option String

/-- A JSON value. Objects keep their fields in order, repeated names included. -/
inductive Value where
  | null
  | bool (b : Bool)
  | number (n : Number)
  | string (s : Literal)
  | array (elements : List Value)
  | object (fields : List (Literal × Value))

/-! ### Text -/

/-- A character inside a string literal. -/
def escape (c : Char) : List Char :=
  if c = '"' then ['\\', '"']
  else if c = '\\' then ['\\', '\\']
  else if c = '\x08' then ['\\', 'b']
  else if c = '\x0c' then ['\\', 'f']
  else if c = '\n' then ['\\', 'n']
  else if c = '\r' then ['\\', 'r']
  else if c = '\t' then ['\\', 't']
  else if c.toNat < 0x20 then
    ['\\', 'u', '0', '0', Hex.digit (c.toNat / 16), Hex.digit (c.toNat % 16)]
  else [c]

/-- A string literal; nothing between the quotes for a literal that stands for no text. -/
def quote (s : Literal) : List Char :=
  '"' :: ((s.getD "").toList.flatMap escape ++ ['"'])

/-- Texts with commas between them. -/
def commaSeparated : List (List Char) → List Char
  | [] => []
  | [text] => text
  | text :: rest => text ++ ',' :: commaSeparated rest

namespace Value

mutual

/-- The compact text of a value. -/
def chars : Value → List Char
  | null => ['n', 'u', 'l', 'l']
  | bool true => ['t', 'r', 'u', 'e']
  | bool false => ['f', 'a', 'l', 's', 'e']
  | number n => n.chars
  | string s => quote s
  | array elements => '[' :: (commaSeparated (elementTexts elements) ++ [']'])
  | object fields => '\x7b' :: (commaSeparated (fieldTexts fields) ++ ['\x7d'])

/-- The compact texts of elements. -/
def elementTexts : List Value → List (List Char)
  | [] => []
  | v :: rest => v.chars :: elementTexts rest

/-- The compact texts of fields, each behind its name. -/
def fieldTexts : List (Literal × Value) → List (List Char)
  | [] => []
  | (name, v) :: rest => (quote name ++ ':' :: v.chars) :: fieldTexts rest

end

/-- The compact text of a value. -/
def text (v : Value) : String :=
  String.ofList v.chars

mutual

/-- Whether a value can be kept for later: every number is finite, every string stands for a text, and
it nests at most `levels` deep. -/
def isKeepable (levels : Nat) : Value → Bool
  | null => true
  | bool _ => true
  | number n => n.isFinite
  | string s => s.isSome
  | array elements =>
    match levels with
    | 0 => false
    | levels + 1 => areKeepable levels elements
  | object fields =>
    match levels with
    | 0 => false
    | levels + 1 => areFieldsKeepable levels fields

/-- Whether all elements can be kept. -/
def areKeepable (levels : Nat) : List Value → Bool
  | [] => true
  | v :: rest => v.isKeepable levels && areKeepable levels rest

/-- Whether all fields can be kept. -/
def areFieldsKeepable (levels : Nat) : List (Literal × Value) → Bool
  | [] => true
  | (name, v) :: rest => name.isSome && v.isKeepable levels && areFieldsKeepable levels rest

end

end Value

end UtxoLedger.Json
