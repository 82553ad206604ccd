import UtxoLedger.Json.Form
import UtxoLedger.Address

/-!
The JSON forms of addresses and networks.
-/

namespace UtxoLedger

open Json

instance : Form AddressVersion where
  write version := .string (some version.name)
  read? _ v := do AddressVersion.ofName? (← word? v)

/-- An address is written as its text with a checksum. -/
instance [CryptoSuite] : Form Address where
  write address := .string (some address.text)
  read? _ v :=
    match v with
    | .string (some text) => (Address.parse text).toOption
    | _ => none

end UtxoLedger
