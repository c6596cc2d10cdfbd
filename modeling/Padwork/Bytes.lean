/-!
# Byte strings and little-endian words

Byte strings are lists. A value of exactly 32 bytes, such as a digest, a seed,
a chunk or a target, is a vector, so that its size needs no check.
-/
namespace Padwork

abbrev Bytes := List UInt8

abbrev Bytes32 := Vector UInt8 32

def littleEndian (w : UInt64) : Vector UInt8 8 :=
  #v[w.toUInt8, (w >>> 8).toUInt8, (w >>> 16).toUInt8, (w >>> 24).toUInt8,
    (w >>> 32).toUInt8, (w >>> 40).toUInt8, (w >>> 48).toUInt8, (w >>> 56).toUInt8]

/-- The word with the given bytes, least significant first. -/
@[inline] def wordOfBytes (b0 b1 b2 b3 b4 b5 b6 b7 : UInt8) : UInt64 :=
  b0.toUInt64 ||| b1.toUInt64 <<< 8 ||| b2.toUInt64 <<< 16 ||| b3.toUInt64 <<< 24 |||
    b4.toUInt64 <<< 32 ||| b5.toUInt64 <<< 40 ||| b6.toUInt64 <<< 48 ||| b7.toUInt64 <<< 56

namespace Bytes32

/-- The first 32 bytes of a string that has so many. -/
def leading? (bytes : Bytes) : Option Bytes32 :=
  if h : 32 ≤ bytes.length then some ⟨(bytes.take 32).toArray, by simp [h]⟩ else none

theorem leading?_eq_none_iff {bytes : Bytes} : leading? bytes = none ↔ bytes.length < 32 := by
  simp [leading?]

theorem toList_of_leading? {bytes : Bytes} {b : Bytes32} (h : leading? bytes = some b) :
    b.toList = bytes.take 32 := by
  simp only [leading?] at h
  split at h
  · cases h
    simp [Vector.toList]
  · contradiction

end Bytes32

end Padwork
