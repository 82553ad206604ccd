import UtxoLedger.Address
import UtxoLedger.Ledger.Loop
import UtxoLedger.Text.Blank

/-!
What a miner is told at its start.
-/

namespace UtxoLedger

/-- The settings of a miner. -/
structure MinerConfig where
  /-- The secret key that signs blocks, in hexadecimal; without one, a key is drawn at random. -/
  minerKey : Option String
  /-- The seconds between mining cycles; zero mines as soon as a transaction arrives. -/
  blockInterval : UInt64
  /-- The coins that the first block mints. -/
  genesisCoins : UInt32
  /-- The network of the addresses that are shown. -/
  addressVersion : AddressVersion
  deriving DecidableEq

namespace MinerConfig

/-- The settings of a miner that is told nothing. -/
def default : MinerConfig :=
  ⟨none, 0, 420000000, .testnet⟩

instance : Inhabited MinerConfig := ⟨default⟩

/-- When to mine. -/
def schedule (config : MinerConfig) : Schedule :=
  if config.blockInterval = 0 then .immediate else .interval config.blockInterval

end MinerConfig

/-- Why a text is not a secret key. -/
inductive SecretKeyError where
  | notHex (cause : HexError)
  | outOfRange
  deriving DecidableEq, Repr

namespace SecretKeyError

/-- The wording for a key that is not 32 bytes of a scalar in range. -/
def rangeMessage : String := "malformed or out-of-range secret key"

def message : SecretKeyError → String
  | notHex cause => s!"miner key is not hex: {cause.message}"
  | outOfRange => s!"miner key is not a valid secret key: {rangeMessage}"

end SecretKeyError

namespace MinerConfig

/-- Reads a secret key; white space around it does not matter. -/
def parseKey (text : String) : Except SecretKeyError SecretKey :=
  match Hex.decode (Text.trim text) with
  | .error cause => .error (.notHex cause)
  | .ok bytes =>
    match SecretKey.ofBytes? bytes with
    | some key => .ok key
    | none => .error .outOfRange

/-- The key that signs blocks, or nothing if one is to be drawn at random. -/
def signingKey? (config : MinerConfig) : Except SecretKeyError (Option SecretKey) :=
  match config.minerKey with
  | none => .ok none
  | some text => (parseKey text).map some

end MinerConfig

end UtxoLedger
