import UtxoLedger.Address
import UtxoLedger.Block.Basic
import UtxoLedger.Block.Merkle
import UtxoLedger.Block.Seal
import UtxoLedger.Block.Wire
import UtxoLedger.Bytes
import UtxoLedger.Chain.History
import UtxoLedger.Chain.InPlace
import UtxoLedger.Chain.Store
import UtxoLedger.Config.Basic
import UtxoLedger.Config.Options
import UtxoLedger.Crypto.Curve
import UtxoLedger.Crypto.Der
import UtxoLedger.Crypto.Ecdsa
import UtxoLedger.Crypto.Hmac
import UtxoLedger.Crypto.Keys
import UtxoLedger.Crypto.Padding
import UtxoLedger.Crypto.Ripemd160
import UtxoLedger.Crypto.Sha256
import UtxoLedger.Crypto.Standard
import UtxoLedger.Crypto.Suite
import UtxoLedger.Error
import UtxoLedger.Identifier
import UtxoLedger.Json.Address
import UtxoLedger.Json.Block
import UtxoLedger.Json.Config
import UtxoLedger.Json.Form
import UtxoLedger.Json.Number
import UtxoLedger.Json.Parser
import UtxoLedger.Json.Transaction
import UtxoLedger.Json.Value
import UtxoLedger.Ledger.InPlace
import UtxoLedger.Ledger.Lookups
import UtxoLedger.Ledger.Loop
import UtxoLedger.Ledger.Mining
import UtxoLedger.Ledger.Pending
import UtxoLedger.Ledger.Shared
import UtxoLedger.Ledger.State
import UtxoLedger.Main
import UtxoLedger.Proofs.Assembly
import UtxoLedger.Proofs.Lawful
import UtxoLedger.Proofs.Machine
import UtxoLedger.Proofs.Mining
import UtxoLedger.Proofs.Pending
import UtxoLedger.Proofs.Replay
import UtxoLedger.Proofs.Run
import UtxoLedger.Proofs.Settlement
import UtxoLedger.Proofs.Table
import UtxoLedger.Proofs.Transaction
import UtxoLedger.Script.Basic
import UtxoLedger.Script.Machine
import UtxoLedger.Script.Number
import UtxoLedger.Script.Opcode
import UtxoLedger.Script.Stack
import UtxoLedger.Sum
import UtxoLedger.Table
import UtxoLedger.Text.Base58
import UtxoLedger.Text.Blank
import UtxoLedger.Text.Hex
import UtxoLedger.Text.Quote
import UtxoLedger.Transaction.Basic
import UtxoLedger.Transaction.InPlace
import UtxoLedger.Transaction.Rules
import UtxoLedger.Transaction.Sighash
import UtxoLedger.Transaction.Signing
import UtxoLedger.Transaction.Wire
import UtxoLedger.Wire.Codec
import UtxoLedger.Wire.Reader
import UtxoLedger.Wire.Varint
import UtxoLedger.Wire.Writer
import UtxoLedger.Proofs.Authorization
import UtxoLedger.Proofs.Ownership
import UtxoLedger.Proofs.History
import UtxoLedger.Proofs.Visible
import UtxoLedger.Proofs.Forks
import UtxoLedger.Proofs.Linkage
import UtxoLedger.Proofs.Agreement
import UtxoLedger.Proofs.Bytes
import UtxoLedger.Proofs.Commitment
import UtxoLedger.Proofs.Reading
import UtxoLedger.Proofs.Writing
import UtxoLedger.Proofs.Format
import UtxoLedger.Proofs.Encoding
import UtxoLedger.Proofs.Merkle
import UtxoLedger.Proofs.Cycle
import UtxoLedger.Proofs.Arrival
import UtxoLedger.Proofs.InPlace
import UtxoLedger.Proofs.Failures
import UtxoLedger.Proofs.Tree
import UtxoLedger.Proofs.Spendable
import UtxoLedger.Proofs.Lookups
import UtxoLedger.Proofs.Shared
import UtxoLedger.Proofs.Passes
import UtxoLedger.Proofs.Progress
import UtxoLedger.Proofs.Advance
import UtxoLedger.Proofs.Unspent
import UtxoLedger.Proofs.Atomic
import UtxoLedger.Ledger.PendingInPlace
import UtxoLedger.Proofs.Offers
import UtxoLedger.Proofs.Sendable
import UtxoLedger.Proofs.Parsing
import UtxoLedger.Proofs.Past
import UtxoLedger.Proofs.Marshalling
import UtxoLedger.Proofs.Signing
import UtxoLedger.Proofs.Standard
import UtxoLedger.Proofs.Text
import UtxoLedger.Proofs.Base58
import UtxoLedger.Proofs.Addresses
import UtxoLedger.Proofs.JsonText
import UtxoLedger.Proofs.JsonForms
import UtxoLedger.Proofs.Tampering
import UtxoLedger.Words
import UtxoLedger.Wire.VarintWords
import UtxoLedger.Script.NumberWords
import UtxoLedger.Proofs.Words
import UtxoLedger.Proofs.Bisection
import UtxoLedger.Proofs.Varint
import UtxoLedger.Proofs.SignMagnitude
import UtxoLedger.Proofs.ScriptNumber
import UtxoLedger.Proofs.Truth
import UtxoLedger.Script.StackWords
import UtxoLedger.Proofs.Stack
import UtxoLedger.Proofs.StackRow
