/-!
# Parameters

The fixed numbers of the scratchpad proof of work and of the hash under it.
Sizes count bytes. Two parties that disagree on any of these accept different
proofs.
-/
namespace Padwork.Parameters

/-- A block of the sponge. -/
abbrev rate : Nat := 136

/-- The byte that separates SHA3 from the other uses of the sponge, first padding bit included. -/
abbrev domain : UInt8 := 0x06

abbrev digestSize : Nat := 32

abbrev chunkCount : Nat := 65536

abbrev chunkSize : Nat := 32

abbrev scratchpadSize : Nat := chunkCount * chunkSize

/-- Keeps the bits of a word that select a chunk. -/
abbrev chunkMask : UInt64 := 0xFFFF

/-- The leading part of a previous hash or a miner address that enters the seed. -/
abbrev seedInputSize : Nat := 32

/-- A block header without its nonce. -/
abbrev headerSize : Nat := 140

abbrev targetSize : Nat := 32

abbrev minRounds : UInt64 := 256

abbrev maxRounds : UInt64 := 2048

abbrev defaultRounds : UInt64 := 512

/-- Nonces searched between two progress reports. -/
abbrev defaultBatchSize : UInt64 := 100000

def RoundsAllowed (rounds : UInt64) : Prop := minRounds ≤ rounds ∧ rounds ≤ maxRounds

instance (rounds : UInt64) : Decidable (RoundsAllowed rounds) :=
  inferInstanceAs (Decidable (_ ∧ _))

end Padwork.Parameters
