import UtxoLedger.Json.Value

/-!
Reading JSON. The grammar is the standard one: four characters of white space, no leading zeros, no
trailing commas, no control characters inside strings.
-/

namespace UtxoLedger.Json

def isSpace (c : Char) : Bool :=
  c = ' ' || c = '\t' || c = '\n' || c = '\r'

/-- The characters from the first token on. -/
def skipSpace (cs : List Char) : List Char :=
  cs.dropWhile isSpace

/-! ### Numbers -/

def decimal? (c : Char) : Option Nat :=
  if '0' ≤ c ∧ c ≤ '9' then some (c.toNat - 48) else none

def digits : List Char → List Nat × List Char
  | [] => ([], [])
  | c :: rest =>
    match decimal? c with
    | none => ([], c :: rest)
    | some d =>
      let (ds, rest) := digits rest
      (d :: ds, rest)

/-- The number with the given decimal digits. -/
def ofDecimal (ds : List Nat) : Nat :=
  ds.foldl (fun n d => 10 * n + d) 0

/-- Reads the integer part: zero, or digits that do not begin with zero. -/
def parseInteger (cs : List Char) : Option (Nat × List Char) :=
  match digits cs with
  | ([], _) => none
  | (0 :: _ :: _, _) => none
  | (ds, rest) => some (ofDecimal ds, rest)

def parseFraction : List Char → Option (List Nat × List Char)
  | '.' :: cs =>
    match digits cs with
    | ([], _) => none
    | (ds, rest) => some (ds, rest)
  | cs => some ([], cs)

/-- Reads the digits of an exponent behind its sign. -/
def parseExponentDigits (negative : Bool) (cs : List Char) : Option (Option Int × List Char) :=
  match digits cs with
  | ([], _) => none
  | (ds, rest) =>
    let e : Int := ofDecimal ds
    some (some (if negative then -e else e), rest)

def parseExponent : List Char → Option (Option Int × List Char)
  | 'e' :: '+' :: cs | 'E' :: '+' :: cs => parseExponentDigits false cs
  | 'e' :: '-' :: cs | 'E' :: '-' :: cs => parseExponentDigits true cs
  | 'e' :: cs | 'E' :: cs => parseExponentDigits false cs
  | cs => some (none, cs)

def parseUnsigned (negative : Bool) (cs : List Char) : Option (Number × List Char) := do
  let (integer, cs) ← parseInteger cs
  let (fraction, cs) ← parseFraction cs
  let (exponent, cs) ← parseExponent cs
  return (⟨negative, integer, fraction, exponent⟩, cs)

def parseNumber : List Char → Option (Number × List Char)
  | '-' :: cs => parseUnsigned true cs
  | cs => parseUnsigned false cs

/-! ### Strings -/

def hexDigit? (c : Char) : Option Nat :=
  if c.toNat < 128 then Hex.digitValue? c.toUInt8 else none

def hex4? (a b c d : Char) : Option Nat := do
  let a ← hexDigit? a
  let b ← hexDigit? b
  let c ← hexDigit? c
  let d ← hexDigit? d
  return ((a * 16 + b) * 16 + c) * 16 + d

/-- What a one-letter escape stands for. -/
def unescape? (c : Char) : Option Char :=
  match c with
  | '"' => some '"'
  | '\\' => some '\\'
  | '/' => some '/'
  | 'b' => some '\x08'
  | 'f' => some '\x0c'
  | 'n' => some '\n'
  | 'r' => some '\r'
  | 't' => some '\t'
  | _ => none

def isHighSurrogate (n : Nat) : Bool :=
  0xd800 ≤ n && n < 0xdc00

def isLowSurrogate (n : Nat) : Bool :=
  0xdc00 ≤ n && n < 0xe000

/-- The character that a surrogate pair stands for. -/
def ofSurrogates (high low : Nat) : Char :=
  Char.ofNat (0x10000 + (high - 0xd800) * 0x400 + (low - 0xdc00))

/-- The second half of a surrogate pair that is escaped at the front. -/
def lowHalf? : List Char → Option Nat
  | '\\' :: 'u' :: a :: b :: c :: d :: _ => (hex4? a b c d).filter isLowSurrogate
  | _ => none

/-- Reads the rest of a string literal behind `done`, its characters so far, last first. `broken` tells
that half a surrogate pair has been seen. -/
def parseStringFrom (done : List Char) (broken : Bool) (cs : List Char) :
    Option (Literal × List Char) :=
  match cs with
  | [] => none
  | '"' :: rest => some (if broken then none else some (String.ofList done.reverse), rest)
  | '\\' :: 'u' :: a :: b :: c :: d :: rest =>
    match hex4? a b c d with
    | none => none
    | some n =>
      if isHighSurrogate n then
        match lowHalf? rest with
        | some m => parseStringFrom (ofSurrogates n m :: done) broken (rest.drop 6)
        | none => parseStringFrom done true rest
      else if isLowSurrogate n then parseStringFrom done true rest
      else parseStringFrom (Char.ofNat n :: done) broken rest
  | '\\' :: c :: rest =>
    match unescape? c with
    | none => none
    | some c => parseStringFrom (c :: done) broken rest
  | c :: rest => if c.toNat < 0x20 ∨ c = '\\' then none else parseStringFrom (c :: done) broken rest
termination_by cs.length

/-- Reads a string literal behind its opening quote. -/
def parseString (cs : List Char) : Option (Literal × List Char) :=
  parseStringFrom [] false cs

/-! ### Values -/

mutual

/-- Reads a value; `fuel` bounds the steps. -/
def parseValue : (fuel : Nat) → List Char → Option (Value × List Char)
  | 0, _ => none
  | fuel + 1, cs =>
    match skipSpace cs with
    | 'n' :: 'u' :: 'l' :: 'l' :: rest => some (.null, rest)
    | 't' :: 'r' :: 'u' :: 'e' :: rest => some (.bool true, rest)
    | 'f' :: 'a' :: 'l' :: 's' :: 'e' :: rest => some (.bool false, rest)
    | '"' :: rest => (parseString rest).map fun (s, rest) => (.string s, rest)
    | '[' :: rest =>
      match skipSpace rest with
      | ']' :: rest => some (.array [], rest)
      | _ => parseElements fuel [] rest
    | '\x7b' :: rest =>
      match skipSpace rest with
      | '\x7d' :: rest => some (.object [], rest)
      | _ => parseFields fuel [] rest
    | rest => (parseNumber rest).map fun (n, rest) => (.number n, rest)

/-- Reads the rest of an array behind `done`, its elements so far, last first. -/
def parseElements : (fuel : Nat) → (done : List Value) → List Char → Option (Value × List Char)
  | 0, _, _ => none
  | fuel + 1, done, cs =>
    match parseValue fuel cs with
    | none => none
    | some (v, rest) =>
      match skipSpace rest with
      | ',' :: rest => parseElements fuel (v :: done) rest
      | ']' :: rest => some (.array (v :: done).reverse, rest)
      | _ => none

/-- Reads the rest of an object behind `done`, its fields so far, last first. -/
def parseFields : (fuel : Nat) → (done : List (Literal × Value)) → List Char →
    Option (Value × List Char)
  | 0, _, _ => none
  | fuel + 1, done, cs =>
    match skipSpace cs with
    | '"' :: rest =>
      match parseString rest with
      | none => none
      | some (name, rest) =>
        match skipSpace rest with
        | ':' :: rest =>
          match parseValue fuel rest with
          | none => none
          | some (v, rest) =>
            match skipSpace rest with
            | ',' :: rest => parseFields fuel ((name, v) :: done) rest
            | '\x7d' :: rest => some (.object ((name, v) :: done).reverse, rest)
            | _ => none
        | _ => none
    | _ => none

end

/-- Reads a value that takes up all of a text but white space. Every second step consumes a
character. -/
def parse (text : String) : Option Value :=
  let cs := text.toList
  match parseValue (2 * cs.length + 2) cs with
  | some (v, rest) => if (skipSpace rest).isEmpty then some v else none
  | none => none

end UtxoLedger.Json
