import Padwork.Bytes
import Padwork.Parameters
import Padwork.Text.Decimal

/-!
# What an engine refuses

Each refusal names its cause and carries the offending length or number. The
first failing check is the one reported.
-/
namespace Padwork.Engine
open Parameters

/-- The inputs of which an engine uses the first 32 bytes. -/
inductive Input where
  | previousHash
  | minerAddress
  | target
deriving DecidableEq

def Input.name : Input → String
  | .previousHash => "prev_hash"
  | .minerAddress => "miner_addr"
  | .target => "target"

inductive Error where
  | tooShort (input : Input) (length : Nat)
  | headerLength (length : Nat)
  | roundsOutOfRange (rounds : UInt64)
  | notInitialized
deriving DecidableEq

/-- What a refusal is about: something the caller gave, or the state of the engine. -/
inductive Error.Kind where
  | invalidArgument
  | invalidState
deriving DecidableEq

def Error.kind : Error → Kind
  | .tooShort .. | .headerLength _ | .roundsOutOfRange _ => .invalidArgument
  | .notInitialized => .invalidState

theorem Error.kind_eq_invalidState_iff {error : Error} :
    error.kind = .invalidState ↔ error = .notInitialized := by
  cases error <;> simp [kind]

def roundsText (rounds : UInt64) : String :=
  "rounds must be " ++ Decimal.render minRounds.toNat ++ "-" ++ Decimal.render maxRounds.toNat ++
    ", got " ++ Decimal.render rounds.toNat

def Error.message : Error → String
  | .tooShort input length =>
    input.name ++ " must be at least 32 bytes, got " ++ Decimal.render length
  | .headerLength length =>
    "header prefix must be exactly " ++ Decimal.render headerSize ++ " bytes, got " ++
      Decimal.render length
  | .roundsOutOfRange rounds => roundsText rounds
  | .notInitialized => "scratchpad not initialized"

def leading (input : Input) (bytes : Bytes) : Except Error Bytes32 :=
  match Bytes32.leading? bytes with
  | some head => .ok head
  | none => .error (.tooShort input bytes.length)

def checkRounds (rounds : UInt64) : Except Error Unit :=
  if RoundsAllowed rounds then .ok () else .error (.roundsOutOfRange rounds)

end Padwork.Engine
