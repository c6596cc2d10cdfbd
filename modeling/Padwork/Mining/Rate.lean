/-!
# Hash rate

Nonces per second in double precision. A run that took no measurable time has
rate zero.
-/
namespace Padwork.Mining

structure Duration where
  seconds : UInt64
  nanoseconds : UInt32

namespace Duration

def toFloat (d : Duration) : Float := d.seconds.toFloat + d.nanoseconds.toFloat / 1e9

end Duration

def hashRate (hashes : UInt64) (elapsed : Duration) : Float :=
  let seconds := elapsed.toFloat
  if seconds == 0.0 then 0.0 else hashes.toFloat / seconds

end Padwork.Mining
