import UtxoLedger.Config.Basic
import UtxoLedger.Json.Address

/-!
The JSON form of the settings of a miner.
-/

namespace UtxoLedger

open Json

/-- A key that is missing or null is no key. -/
instance : Form MinerConfig where
  write config := ofFields [
    ("miner_key", Form.write config.minerKey),
    ("block_interval_secs", Form.write config.blockInterval),
    ("genesis_coins", Form.write config.genesisCoins),
    ("address_version", Form.write config.addressVersion)]
  read? levels v := do
    let fields ← fields?
      ["miner_key", "block_interval_secs", "genesis_coins", "address_version"] v
    let minerKey ← Form.read? (levels - 1) ((field? fields "miner_key").getD .null)
    let blockInterval ← readField? (levels - 1) fields "block_interval_secs"
    let genesisCoins ← readField? (levels - 1) fields "genesis_coins"
    let addressVersion ← readField? (levels - 1) fields "address_version"
    return ⟨minerKey, blockInterval, genesisCoins, addressVersion⟩

end UtxoLedger
