import Padwork.Bytes.Hex
import Padwork.Mining.Miner

/-!
# Outcomes

What a run of the program leaves: lines on standard output, log records, and on
failure its cause. Lines that end in a measurement leave the measured value open. Records
for debugging, and those that come by the clock, are left out.
-/
namespace Padwork.CommandLine

inductive Measure where
  | setupTime
  | elapsedTime
  | hashRate
deriving DecidableEq

inductive Line where
  | text (text : String)
  | measured (label : String) (measure : Measure)
deriving DecidableEq

/-- The text of a line, with what was measured. -/
def Line.render (line : Line) (value : Measure → String) : String :=
  match line with
  | .text content => content
  | .measured label quantity => label ++ " " ++ value quantity

/-- What a clock showed, in nanoseconds, and the number of hashes that the elapsed time went to. -/
structure Timing where
  setup : Nat
  elapsed : Nat
  hashes : Nat

def Timing.render (t : Timing) : Measure → String
  | .setupTime => Decimal.renderRatio t.setup 1000000 ++ " ms"
  | .elapsedTime => Decimal.renderRatio t.elapsed 1000000000 ++ "s"
  | .hashRate => Decimal.renderRatio (1000000000 * t.hashes) t.elapsed ++ " H/s"

inductive Severity where
  | info
  | warn
deriving DecidableEq

def Severity.name : Severity → String
  | .info => "INFO"
  | .warn => "WARN"

structure Record where
  severity : Severity
  text : String
deriving DecidableEq

def Record.render (r : Record) : String := r.severity.name ++ " " ++ r.text

inductive Failure where
  | settingsFile (path : String) (error : Settings.Error)
  | settings (error : Settings.Error)
  | hex (argument : String) (error : Hex.Error)
  | engine (error : Engine.Error)
  | mining (error : Mining.Error)
deriving DecidableEq

/-- What lies behind an error of mining. -/
def causeMessage : Mining.Error → String
  | .engine error => error.message
  | .settings error => error.message
  | .pool error => String.intercalate ": " (error.text :: error.causes)

def Failure.message : Failure → String
  | .settingsFile path error => "loading config from " ++ path ++ ": " ++ error.message
  | .settings error => error.message
  | .hex argument error => "--" ++ argument ++ " is not valid hex: " ++ error.message
  | .engine error => error.message
  | .mining error => error.message ++ ": " ++ causeMessage error

structure Outcome where
  output : List Line
  log : List Record
  failure? : Option Failure
deriving DecidableEq

namespace Outcome

def success (output : List Line) : Outcome := ⟨output, [], none⟩

def failed (failure : Failure) : Outcome := ⟨[], [], some failure⟩

def status (o : Outcome) : Nat := if o.failure?.isSome then 1 else 0

end Outcome

end Padwork.CommandLine
