import Padwork.Parameters
import Padwork.Bytes
import Padwork.Bytes.Utf8
import Padwork.Bytes.Hex
import Padwork.Text.Decimal
import Padwork.Text.Quoted
import Padwork.Keccak.State
import Padwork.Keccak.Permutation
import Padwork.Sha3.Block
import Padwork.Sha3.Hasher
import Padwork.Sha3.Session
import Padwork.Scratchpad
import Padwork.NonceRange
import Padwork.Engine.Error
import Padwork.Engine.Basic
import Padwork.Engine.Call
import Padwork.Json.Number
import Padwork.Json.Text
import Padwork.Json.Token
import Padwork.Json.Value
import Padwork.Settings.Basic
import Padwork.Settings.File
import Padwork.Mining.Miner
import Padwork.Mining.Rate
import Padwork.CommandLine.Key
import Padwork.CommandLine.Argument
import Padwork.CommandLine.Number
import Padwork.CommandLine.Invocation
import Padwork.CommandLine.Outcome
import Padwork.CommandLine.Run
import Padwork.Main
import Padwork.Proofs.Fips202.StateArray
import Padwork.Proofs.Fips202.Sponge
import Padwork.Proofs.Bytes.Bits
import Padwork.Proofs.Bytes.Numbers
import Padwork.Proofs.Bytes.Hex
import Padwork.Proofs.Keccak.Permutation
import Padwork.Proofs.Keccak.Bijection
import Padwork.Proofs.Sha3.Blocks
import Padwork.Proofs.Sha3.Digest
import Padwork.Proofs.Sha3.History
import Padwork.Proofs.Scratchpad.Contents
import Padwork.Proofs.Engine.Accepted
import Padwork.Proofs.Engine.Refusal
import Padwork.Proofs.Engine.History
import Padwork.Proofs.Engine.Scan
import Padwork.Proofs.Engine.Search
import Padwork.Proofs.Engine.Building
import Padwork.Proofs.Work.Function
import Padwork.Proofs.Work.Verification
import Padwork.Proofs.Mining.Construction
import Padwork.Proofs.Mining.Progress
import Padwork.Proofs.Mining.Agreement
import Padwork.Proofs.Mining.Ending
import Padwork.Proofs.Mining.Stopping
import Padwork.Proofs.Mining.Resumption
import Padwork.Proofs.Mining.Tiling
import Padwork.Proofs.Mining.Relaxation
import Padwork.Proofs.Mining.Refusal
import Padwork.Proofs.Json.Grammar
import Padwork.Proofs.Json.Number
import Padwork.Proofs.Json.Literal
import Padwork.Proofs.Json.Text
import Padwork.Proofs.Json.Token
import Padwork.Proofs.Json.Value
import Padwork.Proofs.Json.Spelling
import Padwork.Proofs.CommandLine.Spelling
import Padwork.Proofs.CommandLine.Mining
import Padwork.Proofs.CommandLine.Coverage
import Padwork.Proofs.CommandLine.Failure
import Padwork.Proofs.CommandLine.FailingAlike
import Padwork.Proofs.CommandLine.Validation
import Padwork.Proofs.CommandLine.Hashing
import Padwork.Proofs.Settings.Members
import Padwork.Proofs.Settings.Meaning
import Padwork.Proofs.Settings.RoundTrip
import Padwork.Proofs.Sha3.Padding
import Padwork.Proofs.Sha3.Ranges
import Padwork.Proofs.CommandLine.Overriding
import Padwork.Proofs.CommandLine.Help
