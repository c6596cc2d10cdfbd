import Padwork.Sha3.Hasher

/-!
# Sessions of named hashers

Several hashers at work side by side, each under a name. A hasher can be started
afresh, fed, asked for its digest, or replaced by a copy of another one, and no step
touches a hasher other than the one it names.
-/
namespace Padwork.Sha3

inductive Step (ι : Type) where
  | fresh (name : ι)
  | update (name : ι) (data : Bytes)
  | clone (name source : ι)
  | digest (name : ι)

namespace Step

variable {ι : Type} [DecidableEq ι]

def name : Step ι → ι
  | .fresh name => name
  | .update name _ => name
  | .clone name _ => name
  | .digest name => name

/-- What the named hasher is after the step. -/
def result (hashers : ι → Option Hasher) : Step ι → Option Hasher
  | .fresh _ => some .empty
  | .update name data => (hashers name).map (·.update data)
  | .clone _ source => hashers source
  | .digest name => hashers name

/-- The digest that the step reads, if it reads one and there is such a hasher. -/
def answer? (hashers : ι → Option Hasher) : Step ι → Option Bytes32
  | .digest name => (hashers name).map (·.digest)
  | _ => none

def apply (hashers : ι → Option Hasher) (step : Step ι) : ι → Option Hasher :=
  fun name => if name = step.name then step.result hashers else hashers name

end Step

def session {ι : Type} [DecidableEq ι] (steps : List (Step ι)) : ι → Option Hasher :=
  steps.foldl Step.apply fun _ => none

end Padwork.Sha3
