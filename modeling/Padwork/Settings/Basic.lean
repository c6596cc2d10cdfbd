import Padwork.Engine.Error
import Padwork.Machine

/-!
# Settings

The three numbers a user may set. Any words can be held; `validate` says which of
them can be worked with, and reports the first fault in the order of the fields.
-/
namespace Padwork
open Parameters

structure Settings where
  rounds : UInt64
  threads : UInt64
  batchSize : UInt64
deriving DecidableEq

namespace Settings

/-- Each processor gets a worker thread. -/
def default (machine : Machine) : Settings := ⟨defaultRounds, machine.processors, defaultBatchSize⟩

inductive Fault where
  | roundsOutOfRange (rounds : UInt64)
  | noThreads
  | emptyBatch
deriving DecidableEq

def Fault.message : Fault → String
  | .roundsOutOfRange rounds => Engine.roundsText rounds
  | .noThreads => "threads must be at least 1"
  | .emptyBatch => "batch_size must be at least 1"

/-- Why settings could not be had: from the file, from its text, or from their values. -/
inductive Error where
  | unreadable
  | malformed
  | invalid (fault : Fault)
deriving DecidableEq

def Error.message : Error → String
  | .unreadable => "File I/O error:"
  | .malformed => "Invalid config file:"
  | .invalid fault => "Invalid config value: " ++ fault.message

def fault? (s : Settings) : Option Fault :=
  if ¬RoundsAllowed s.rounds then some (.roundsOutOfRange s.rounds)
  else if s.threads = 0 then some .noThreads
  else if s.batchSize = 0 then some .emptyBatch
  else none

def validate (s : Settings) : Except Error Unit :=
  match s.fault? with
  | some fault => .error (.invalid fault)
  | none => .ok ()

theorem fault?_eq_none_iff {s : Settings} :
    s.fault? = none ↔ RoundsAllowed s.rounds ∧ s.threads ≠ 0 ∧ s.batchSize ≠ 0 := by
  unfold fault?
  by_cases hr : RoundsAllowed s.rounds <;> by_cases ht : s.threads = 0 <;>
    by_cases hb : s.batchSize = 0 <;> simp [hr, ht, hb]

theorem validate_eq_ok_iff {s : Settings} : s.validate = .ok () ↔ s.fault? = none := by
  unfold validate
  cases s.fault? <;> simp

theorem fault?_default (machine : Machine) : (default machine).fault? = none := by
  have hrounds : RoundsAllowed defaultRounds := by decide
  have hbatch : defaultBatchSize ≠ 0 := by decide
  exact fault?_eq_none_iff.mpr ⟨hrounds, machine.processors_ne_zero, hbatch⟩

theorem validate_default (machine : Machine) : (default machine).validate = .ok () :=
  validate_eq_ok_iff.mpr (fault?_default machine)

end Settings

end Padwork
