import Padwork.Bytes.Hex
import Padwork.Engine.Basic
import Padwork.Settings.Basic

/-!
# Mining

A miner is bound to one template. It walks a range of nonces batch by batch,
reports how many nonces it has tried after each batch without a solution, and
looks at a stop signal before each batch. A signal that comes during a batch or
its report takes effect before the next one.
-/
namespace Padwork

structure Miner where
  engine : Engine
  batchSize : UInt64
  batchSize_pos : 0 < batchSize

namespace Mining

inductive Outcome where
  | found (solution : Solution)
  | exhausted
  | stopped
deriving DecidableEq

inductive Error where
  | engine (error : Engine.Error)
  | settings (error : Settings.Error)
  | pool (error : PoolError)
deriving DecidableEq

def Error.message : Error → String
  | .engine error => "Engine error: " ++ error.message
  | .settings error => "Configuration error: " ++ error.message
  | .pool error => "Failed to start worker pool: " ++ error.text

/-- What a run leaves: the batches it searched and the counts it reported, in order, and its end. -/
structure Run where
  batches : Array NonceRange
  reports : Array UInt64
  result : Except Error Outcome

def Run.hashes (r : Run) : UInt64 := r.reports.back?.getD 0

/-- When the stop signal comes: never, or with the report of this number, where number zero is
before the run. -/
abbrev Signal := Option Nat

/-- Whether the signal is up after so many reports. -/
def Signal.isUp (signal : Signal) (reports : Nat) : Bool :=
  match signal with
  | none => false
  | some number => number ≤ reports

/-- How far a run has come: the nonces that remain, and how many have been tried. -/
structure Progress where
  remaining : NonceRange
  hashes : UInt64
  batches : Array NonceRange
  reports : Array UInt64

namespace Progress

def start (range : NonceRange) : Progress := ⟨range, 0, #[], #[]⟩

def search (p : Progress) (batch : NonceRange) : Progress :=
  { p with batches := p.batches.push batch }

def advance (p : Progress) (batch : NonceRange) : Progress :=
  let hashes := p.hashes + batch.size
  { p with
    remaining := ⟨batch.stop, p.remaining.stop⟩
    hashes
    reports := p.reports.push hashes }

def ended (p : Progress) (result : Except Error Outcome) : Run := ⟨p.batches, p.reports, result⟩

end Progress

end Mining

namespace Miner
open Mining

/-- A miner for a template. Faulty settings are reported first, then threads that cannot be started,
and then a faulty template. -/
def ofSettings (machine : Machine) (s : Settings) (previousHash minerAddress : Bytes) :
    Except Mining.Error Miner :=
  match h : s.fault? with
  | some fault => .error (.settings (.invalid fault))
  | none =>
    match machine.poolError? s.threads with
    | some error => .error (.pool error)
    | none =>
      match Engine.forTemplate previousHash minerAddress s.rounds with
      | .error error => .error (.engine error)
      | .ok engine => .ok ⟨engine, s.batchSize,
          UInt64.pos_iff_ne_zero.mpr (Settings.fault?_eq_none_iff.mp h).2.2⟩

def walk (m : Miner) (header target : Bytes) (signal : Signal) (p : Progress) : Run :=
  if p.remaining.start < p.remaining.stop then
    if signal.isUp p.reports.size then p.ended (.ok .stopped)
    else
      let batch := p.remaining.batch m.batchSize
      match m.engine.search header target batch with
      | .error error => (p.search batch).ended (.error (.engine error))
      | .ok (some solution) => (p.search batch).ended (.ok (.found solution))
      | .ok none => m.walk header target signal ((p.search batch).advance batch)
  else p.ended (.ok .exhausted)
termination_by p.remaining.stop.toNat - p.remaining.start.toNat
decreasing_by
  have := NonceRange.start_lt_stop_batch m.batchSize_pos ‹p.remaining.start < p.remaining.stop›
  have := p.remaining.stop_batch_le m.batchSize
  simp only [Progress.advance, Progress.search]
  omega

/-- Searches a range of nonces. Unusable arguments are reported even when there is nothing to
search. -/
def mine (m : Miner) (header target : Bytes) (range : NonceRange) (signal : Signal) : Run :=
  match m.engine.search header target .empty with
  | .error error => (Progress.start range).ended (.error (.engine error))
  | .ok _ => m.walk header target signal (.start range)

end Miner

namespace Mining

def Run.notice? (r : Run) (range : NonceRange) : Option String :=
  match r.result with
  | .error _ => none
  | .ok .stopped => some ("mining stopped after " ++ Decimal.render r.hashes.toNat ++ " hashes")
  | .ok (.found solution) =>
    some ("found nonce " ++ Decimal.render solution.nonce.toNat ++ " (" ++
      Hex.encode solution.digest.toList ++ ")")
  | .ok .exhausted => some ("nonce range " ++ range.text ++ " exhausted")

end Mining

end Padwork
