import UtxoLedger.Crypto.Suite
import UtxoLedger.Script.Basic
import UtxoLedger.Text.Base58

/-!
Addresses: the digest of a public key, marked with a network, and their text form with a checksum.
-/

namespace UtxoLedger

/-- The network that an address belongs to. -/
inductive AddressVersion where
  | mainnet
  | goodnet
  | testnet
  deriving DecidableEq, Repr

namespace AddressVersion

def tag : AddressVersion → UInt8
  | mainnet => 1
  | goodnet => 2
  | testnet => 3

def ofTag? (tag : UInt8) : Option AddressVersion :=
  match tag.toNat with
  | 1 => some mainnet
  | 2 => some goodnet
  | 3 => some testnet
  | _ => none

/-- The capitalised name of the network. -/
def title : AddressVersion → String
  | mainnet => "Mainnet"
  | goodnet => "Goodnet"
  | testnet => "Testnet"

def name : AddressVersion → String
  | mainnet => "mainnet"
  | goodnet => "goodnet"
  | testnet => "testnet"

def ofName? (name : String) : Option AddressVersion :=
  [mainnet, goodnet, testnet].find? (·.name == name)

end AddressVersion

/-- Where to pay: a network and the digest of a public key. -/
structure Address where
  version : AddressVersion
  hash : KeyHash
  deriving DecidableEq

namespace Address

def size : Nat := 23

/-- The bytes of an address: its network, two zero bytes, and the digest. -/
def bytes (address : Address) : Bytes :=
  address.version.tag :: 0 :: 0 :: address.hash.toList

def ofBytes (bytes : Bytes) : Except AddressError Address :=
  match bytes with
  | tag :: witnessVersion :: reserved :: hash =>
    match FixedBytes.ofList? hash with
    | none => .error (.length size bytes.length)
    | some hash =>
      match AddressVersion.ofTag? tag with
      | none => .error (.unknownVersion tag)
      | some version =>
        if witnessVersion ≠ 0 then .error (.witnessVersion witnessVersion)
        else if reserved ≠ 0 then .error .reservedByte
        else .ok ⟨version, hash⟩
  | _ => .error (.length size bytes.length)

def script (address : Address) : Bytes :=
  (Script.payTo address.hash).bytes

end Address

/-! ### Text with a checksum -/

namespace Base58Check

variable [CryptoSuite]

def checksumSize : Nat := 4

/-- The first bytes of the digest of a payload. -/
def checksum (payload : Bytes) : Bytes :=
  (hash256 payload).toList.take checksumSize

/-- The text of a payload and its checksum. -/
def encode (payload : Bytes) : String :=
  Base58.encode (payload ++ checksum payload)

/-- The payload of a text whose checksum agrees. -/
def decode (text : String) : Except AddressError Bytes := do
  let bytes ← Base58.decode text
  if bytes.length ≤ checksumSize then throw .tooShort
  else
    let payload := bytes.take (bytes.length - checksumSize)
    let actual := bytes.drop (bytes.length - checksumSize)
    if actual = checksum payload then return payload
    else throw (.checksum actual (checksum payload))

end Base58Check

namespace Address

variable [CryptoSuite]

def ofPublicKey (version : AddressVersion) (key : PublicKey) : Address :=
  ⟨version, key.keyHash⟩

def text (address : Address) : String :=
  Base58Check.encode address.bytes

def parse (text : String) : Except AddressError Address := do
  ofBytes (← Base58Check.decode text)

end Address

end UtxoLedger
