import Padwork.Sha3.Hasher

/-!
# The scratchpad

A table of 65536 chunks of 32 bytes that belongs to one block template. The
template's previous hash and miner address give a seed, and the seed gives each
chunk by its index. Mixing a nonce looks chunks up at places that depend on
everything mixed before.
-/
namespace Padwork
open Parameters

def deriveSeed (previousHash minerAddress : Bytes32) : Bytes32 :=
  Sha3.hash (previousHash.toList ++ minerAddress.toList)

def expandChunk (seed : Bytes32) (index : UInt64) : Bytes32 :=
  Sha3.hash (seed.toList ++ (littleEndian index).toList)

structure Scratchpad where
  chunks : Vector Bytes32 chunkCount

namespace Scratchpad

def zeroed : Scratchpad := ⟨.replicate _ (.replicate _ 0)⟩

def cleared (p : Scratchpad) : Scratchpad := ⟨p.chunks.map fun _ => .replicate _ 0⟩

/-- Puts the chunk of a seed in its place. -/
def write (p : Scratchpad) (seed : Bytes32) (i : Fin chunkCount) : Scratchpad :=
  ⟨p.chunks.set i (expandChunk seed (.ofNat i)) i.isLt⟩

/-- Any word selects a chunk, by its low bits. -/
def index (word : UInt64) : Fin chunkCount :=
  ⟨(word &&& chunkMask).toNat, by
    rw [UInt64.toNat_and]
    exact Nat.lt_of_le_of_lt Nat.and_le_right (by decide)⟩

theorem val_index (word : UInt64) : (index word).val = word.toNat % chunkCount :=
  (UInt64.toNat_and ..).trans (Nat.and_two_pow_sub_one_eq_mod word.toNat 16)

def chunk (p : Scratchpad) (word : UInt64) : Bytes32 := p.chunks.get (index word)

def bytes (p : Scratchpad) : Bytes := p.chunks.toList.flatMap (·.toList)

def isZeroed (p : Scratchpad) : Bool := p.chunks.all fun chunk => chunk.all (· == 0)

/-- The place that a mixing state selects: its first four bytes, least significant first. -/
def placeOf (state : Bytes32) : Fin chunkCount :=
  index (wordOfBytes state[0] state[1] state[2] state[3] 0 0 0 0)

/-- One round of mixing. -/
def step (p : Scratchpad) (state : Bytes32) : Bytes32 :=
  Sha3.hash (state.toList ++ (p.chunks.get (placeOf state)).toList)

def rounds (p : Scratchpad) : Nat → Bytes32 → Bytes32
  | 0, state => state
  | n + 1, state => p.rounds n (p.step state)

/-- The digest of a nonce: hash it behind the header, mix, and hash once more. -/
def mix (p : Scratchpad) (count : Nat) (header : Bytes) (nonce : UInt64) : Bytes32 :=
  Sha3.hash (p.rounds count (Sha3.hashConcat header (littleEndian nonce).toList)).toList

end Scratchpad

/-- A digest meets a target that is not below it. The first byte where they differ decides. -/
def meets (digest target : Bytes32) : Bool := digest ≤ target

end Padwork
