import Padwork.Keccak.Permutation
import Padwork.Sha3.Block

/-!
# SHA3-256

A hasher is a sponge state together with the bytes that wait for their block.
It takes a message in pieces of any size, and its digest can be read at any time
without disturbing it.
-/
namespace Padwork.Sha3

/-- Adds a block to the state and permutes. -/
def absorb (s : Keccak.State) (b : Block) : Keccak.State := Keccak.permute (s.xor b.toState)

def squeeze (s : Keccak.State) : Bytes32 :=
  littleEndian s.y0.x0 ++ littleEndian s.y0.x1 ++ littleEndian s.y0.x2 ++ littleEndian s.y0.x3

structure Hasher where
  state : Keccak.State
  buffer : Buffer

namespace Hasher

def empty : Hasher := ⟨.zero, .empty⟩

/-- Takes in a further piece of the message. -/
def update (h : Hasher) (data : Bytes) : Hasher :=
  let (blocks, buffer) := h.buffer.push data
  ⟨blocks.foldl absorb h.state, buffer⟩

def digest (h : Hasher) : Bytes32 := squeeze (absorb h.state h.buffer.closed)

@[simp] theorem update_nil (h : Hasher) : h.update [] = h := by
  simp [update, Buffer.push]

end Hasher

/-- SHA3-256 of a byte string. -/
def hash (data : Bytes) : Bytes32 := (Hasher.empty.update data).digest

def hashConcat (a b : Bytes) : Bytes32 := ((Hasher.empty.update a).update b).digest

end Padwork.Sha3
