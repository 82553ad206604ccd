import UtxoLedger.Config.Basic

/-!
The settings of a miner from command line flags and environment variables. A flag comes before the
variable of the same setting, and both before the default.
-/

namespace UtxoLedger

/-- Why the command line does not give settings. -/
inductive UsageError where
  /-- A value is not a number, or not in range. -/
  | valueValidation
  /-- A value is missing, or not one of the possible ones. -/
  | invalidValue
  | unknownArgument
  | argumentConflict
  /-- A flag without a value is given one. -/
  | tooManyValues
  /-- Not a mistake: help is asked for. -/
  | displayHelp
  | displayVersion
  deriving DecidableEq, Repr

def UsageError.kindName : UsageError → String
  | valueValidation => "ValueValidation"
  | invalidValue => "InvalidValue"
  | unknownArgument => "UnknownArgument"
  | argumentConflict => "ArgumentConflict"
  | tooManyValues => "TooManyValues"
  | displayHelp => "DisplayHelp"
  | displayVersion => "DisplayVersion"

/-- A setting that a flag or a variable can give. -/
inductive Setting where
  | minerKey
  | blockInterval
  | genesisCoins
  | addressVersion
  deriving DecidableEq, Repr

namespace Setting

def all : List Setting :=
  [minerKey, blockInterval, genesisCoins, addressVersion]

def flag : Setting → String
  | minerKey => "miner-key"
  | blockInterval => "block-interval-secs"
  | genesisCoins => "genesis-coins"
  | addressVersion => "address-version"

def variableName : Setting → String
  | minerKey => "MINER_KEY"
  | blockInterval => "BLOCK_INTERVAL_SECS"
  | genesisCoins => "GENESIS_COINS"
  | addressVersion => "ADDRESS_VERSION"

def ofFlag? (name : String) : Option Setting :=
  all.find? (·.flag == name)

end Setting

/-! ### Numbers -/

/-- The number that decimal digits make; there has to be one at least. -/
def decimalValue? (digits : List Char) : Option Nat :=
  if digits.isEmpty then none
  else
    digits.foldl (fun value c =>
      match value with
      | some n => if '0' ≤ c ∧ c ≤ '9' then some (10 * n + (c.toNat - 48)) else none
      | none => none) (some 0)

def parseUnsigned? (text : String) : Option Nat :=
  match text.toList with
  | '+' :: digits => decimalValue? digits
  | digits => decimalValue? digits

def parseSigned? (text : String) : Option Int :=
  match text.toList with
  | '-' :: digits => (decimalValue? digits).map fun n => -(n : Int)
  | '+' :: digits => (decimalValue? digits).map Int.ofNat
  | digits => (decimalValue? digits).map Int.ofNat

/-! ### Settings -/

/-- The settings with one more given. The interval is read as a number without a sign; the coins may
have one, but not be below zero. -/
def MinerConfig.set (config : MinerConfig) (setting : Setting) (value : String) :
    Except UsageError MinerConfig :=
  match setting with
  | .minerKey => .ok { config with minerKey := some value }
  | .blockInterval =>
    match parseUnsigned? value with
    | some n =>
      if n < UInt64.size then .ok { config with blockInterval := UInt64.ofNat n }
      else .error .valueValidation
    | none => .error .valueValidation
  | .genesisCoins =>
    match parseSigned? value with
    | some n =>
      if 0 ≤ n ∧ n < UInt32.size then .ok { config with genesisCoins := UInt32.ofNat n.toNat }
      else .error .valueValidation
    | none => .error .valueValidation
  | .addressVersion =>
    match AddressVersion.ofName? value with
    | some version => .ok { config with addressVersion := version }
    | none => .error .invalidValue

/-- The settings read so far. -/
structure OptionReader where
  config : MinerConfig
  given : List Setting
  /-- A flag whose value has not been looked at, with that value if it has been seen. -/
  waiting : Option (Setting × Option String)

namespace OptionReader

def initial : OptionReader :=
  ⟨.default, [], none⟩

/-- Takes the value of a flag, which may not have been given before. -/
def assign (r : OptionReader) (setting : Setting) (value : String) :
    Except UsageError OptionReader :=
  if r.given.contains setting then .error .argumentConflict
  else (r.config.set setting value).map fun config => ⟨config, setting :: r.given, none⟩

/-- Looks at the value of the flag that waits. -/
def settle (r : OptionReader) : Except UsageError OptionReader :=
  match r.waiting with
  | none => .ok r
  | some (_, none) => .error .invalidValue
  | some (setting, some value) => r.assign setting value

/-- A request that ends the reading, unless the flag before it is wrong. -/
def request {α : Type} (r : OptionReader) (what : UsageError) : Except UsageError α :=
  match r.settle with
  | .error e => .error e
  | .ok _ => .error what

/-- A flag with two dashes, by what follows them: a name, perhaps with a value behind an equals
sign. -/
def long (r : OptionReader) (text : List Char) : Except UsageError OptionReader :=
  let name := String.ofList (text.takeWhile (· != '='))
  let value? := (text.dropWhile (· != '=')).tail?.map String.ofList
  if name = "help" ∨ name = "version" then
    if value?.isSome then .error .tooManyValues
    else r.request (if name = "help" then .displayHelp else .displayVersion)
  else
    match Setting.ofFlag? name with
    | none => .error .unknownArgument
    | some setting =>
      match r.settle, value? with
      | .error e, _ => .error e
      | .ok r, some value => r.assign setting value
      | .ok r, none => .ok { r with waiting := some (setting, none) }

/-- One argument before `--`. A value follows a flag as the next argument, unless that begins with a
dash and has more than it. -/
def argument (r : OptionReader) (text : String) : Except UsageError OptionReader :=
  match text.toList with
  | '-' :: '-' :: rest => r.long rest
  | '-' :: 'h' :: _ => r.request .displayHelp
  | '-' :: 'V' :: _ => r.request .displayVersion
  | '-' :: _ :: _ => .error .unknownArgument
  | _ =>
    match r.waiting with
    | some (setting, none) => .ok { r with waiting := some (setting, some text) }
    | _ => .error .unknownArgument

/-- All arguments. Nothing may follow `--`. -/
def arguments (r : OptionReader) : List String → Except UsageError OptionReader
  | [] => r.settle
  | "--" :: rest => if rest.isEmpty then r.settle else .error .unknownArgument
  | text :: rest =>
    match r.argument text with
    | .error e => .error e
    | .ok r => r.arguments rest

/-- Takes the variables of settings that no flag has given. -/
def readEnvironment (r : OptionReader) (environment : String → Option String) :
    List Setting → Except UsageError MinerConfig
  | [] => .ok r.config
  | setting :: rest =>
    match environment setting.variableName with
    | none => r.readEnvironment environment rest
    | some value =>
      if r.given.contains setting then r.readEnvironment environment rest
      else
        match r.config.set setting value with
        | .error e => .error e
        | .ok config => { r with config }.readEnvironment environment rest

end OptionReader

/-- The settings that arguments and the environment give. -/
def MinerConfig.ofOptions (arguments : List String) (environment : String → Option String) :
    Except UsageError MinerConfig :=
  match OptionReader.initial.arguments arguments with
  | .error e => .error e
  | .ok r => r.readEnvironment environment Setting.all

end UtxoLedger
