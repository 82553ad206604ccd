import UtxoLedger.Config.Options
import UtxoLedger.Crypto.Standard
import Std.Time.DateTime.Timestamp

/-!
The program: a miner with a ledger of its own in memory. It reads its settings, mints the coins of the
first block to its own key, and mines until it is stopped from outside.
-/

namespace UtxoLedger.Program

/-- What the program is told by its arguments, for those who ask. -/
def usage : String :=
  "Usage: utxo-ledger [OPTIONS]\n\n" ++
  "  --miner-key <HEX>             secret key that signs blocks, random if there is none\n" ++
  "  --block-interval-secs <SECS>  seconds between mining cycles, 0 to mine at once\n" ++
  "  --genesis-coins <COINS>       coins that the first block mints\n" ++
  "  --address-version <NETWORK>   mainnet, goodnet or testnet\n" ++
  "  -h, --help\n" ++
  "  -V, --version"

/-- The seconds since the beginning of 1970, as headers hold them. -/
def now : IO UInt32 := do
  let seconds := (← Std.Time.Timestamp.now).toSecondsSinceUnixEpoch.val
  if 0 ≤ seconds ∧ seconds < UInt32.size then
    return UInt32.ofNat seconds.toNat
  else
    throw (.userError s!"timestamp {seconds} does not fit a block header")

/-- Random bytes. -/
def randomBytes (count : Nat) : IO Bytes := do
  return (← IO.getRandomBytes (USize.ofNat count)).toList

/-- Draws secret keys until one is in range. -/
partial def randomKey : IO SecretKey := do
  match SecretKey.ofBytes? (← randomBytes 32) with
  | some key => return key
  | none => randomKey

/-- The stamps of the blocks that are mined from now on. -/
def stamps : IO (Nat → Stamp) := do
  let timestamp ← now
  let random := ofLittleEndian (← randomBytes 8)
  return fun i => ⟨timestamp, UInt64.ofNat (random + i)⟩

/-- Sleeps for so many seconds. -/
def sleepSeconds : Nat → IO Unit
  | 0 => return ()
  | n + 1 => do
    IO.sleep 1000
    sleepSeconds n

/-- Waits as the schedule says; the timer wakes the loop. -/
def pause (schedule : Schedule) (loop : Loop) : IO Loop :=
  match schedule with
  | .immediate => do
    sleepSeconds 1
    return loop
  | .interval seconds => do
    sleepSeconds seconds.toNat
    return loop.wake

/-- Lets the loop go on, again and again, until it ends. -/
partial def mine (key : SecretKey) (schedule : Schedule) (loop : Loop) : IO Unit := do
  let loop := loop.poll key (← stamps)
  if loop.phase = .stopped then return ()
  else mine key schedule (← pause schedule loop)

/-- Mints the coins of the first block and mines from there on. -/
def start (config : MinerConfig) (key : SecretKey) : IO UInt32 := do
  let owner := key.publicKey
  let stamp := (← stamps) 0
  match Ledger.empty.mintGenesis key stamp config.genesisCoins owner with
  | .error e =>
    IO.eprintln s!"Error: {e.message}"
    return 1
  | .ok (block, ledger) =>
    let address := Address.ofPublicKey config.addressVersion owner
    let coins := config.genesisCoins.toNat
    IO.println s!"Genesis block {block.id.text} created: {coins} coins to {address.text}"
    (← IO.getStdout).flush
    mine key config.schedule (.ofLedger ledger)
    return 0

/-- Runs the program with settings. -/
def runWith (config : MinerConfig) : IO UInt32 := do
  match config.signingKey? with
  | .ok (some key) => start config key
  | .ok none => start config (← randomKey)
  | .error e =>
    IO.eprintln s!"Error: {e.message}"
    return 1

/-- The environment variables that settings are read from. -/
def environment : IO (String → Option String) := do
  let values ← Setting.all.mapM fun setting => do
    return (setting.variableName, ← IO.getEnv setting.variableName)
  return fun name => (values.lookup name).join

/-- Reads the settings and mines. Gives the exit code. -/
def run (arguments : List String) : IO UInt32 := do
  match MinerConfig.ofOptions arguments (← environment) with
  | .ok config => runWith config
  | .error .displayHelp =>
    IO.println usage
    return 0
  | .error .displayVersion =>
    IO.println "utxo-ledger 0.1.0"
    return 0
  | .error e =>
    IO.eprintln s!"Error: {e.kindName}"
    IO.eprintln usage
    return 1

end UtxoLedger.Program

/-- The program. -/
def main (arguments : List String) : IO UInt32 :=
  UtxoLedger.Program.run arguments
