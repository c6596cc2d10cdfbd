/-!
# The machine

What a run finds where it runs: how many processors there are, which is how many threads
work by default, and whether so many threads can be started.
-/
namespace Padwork

/-- Why worker threads could not be started, with the texts of what lies behind it. -/
structure PoolError where
  text : String
  causes : List String
deriving DecidableEq

structure Machine where
  processors : UInt64
  processors_ne_zero : processors ≠ 0
  poolError? : (threads : UInt64) → Option PoolError

namespace Machine

def Starts (m : Machine) (threads : UInt64) : Prop := m.poolError? threads = none

/-- One processor, and no limit to the threads. -/
def single : Machine := ⟨1, by decide, fun _ => none⟩

theorem single_starts (threads : UInt64) : single.Starts threads := rfl

end Machine

end Padwork
