import Padwork.CommandLine.Run

/-!
# The program

Reads the settings file, runs the invocation and prints what it leaves: lines on
standard output, log records and errors on standard error. The exit status is two
when the arguments are not usable.
-/
namespace Padwork.CommandLine

def readFile (path : String) : IO (Option Bytes) := do
  try return some (← IO.FS.readBinFile path).toList
  catch _ => return none

/-- Runs an invocation with a clock, on a single thread. A benchmark's engine is built once more to
time it alone. -/
def timed (files : Files) (invocation : Invocation) : IO (Outcome × Timing) := do
  let begun ← IO.monoNanosNow
  let benchmark ← IO.lazyPure fun _ => invocation.benchmark? .single files
  let ready ← IO.monoNanosNow
  let outcome ← IO.lazyPure fun _ => invocation.outcome .single files
  let ended ← IO.monoNanosNow
  let setup := if benchmark.isSome then ready - begun else 0
  return (outcome, ⟨setup, ended - ready - setup, (benchmark.map (·.2)).getD 0⟩)

def print (outcome : Outcome) (timing : Timing) : IO Unit := do
  for record in outcome.log do
    IO.eprintln record.render
  for line in outcome.output do
    IO.println (line.render timing.render)
  if let some failure := outcome.failure? then
    IO.eprintln ("Error: " ++ failure.message)

end Padwork.CommandLine

open Padwork.CommandLine in
def main (arguments : List String) : IO UInt32 := do
  match Invocation.ofArguments? arguments with
  | none =>
    IO.eprintln usage
    return 2
  | some invocation =>
    let file ← match invocation.config? with
      | some path => readFile path
      | none => pure none
    let (outcome, timing) ← timed (fun _ => file) invocation
    print outcome timing
    return outcome.status.toUInt32
