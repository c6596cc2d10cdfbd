import Padwork.Proofs.Bytes.Numbers

/-!
# The work function

The proof of work as a function of byte strings and natural numbers, with SHA3-256
of the standard as its hash. A template gives a seed, the seed gives a chunk for
each index, and a nonce gives a sequence of states, each the hash of the one before
it and of the chunk that it points to.
-/
namespace Padwork.Work
open Fips202

def seed (previousHash minerAddress : Bytes) : Bytes :=
  sha3OfBytes (previousHash.take 32 ++ minerAddress.take 32)

def chunk (seed : Bytes) (index : Nat) : Bytes := sha3OfBytes (seed ++ le64 index)

/-- The index of the chunk that a state points to. -/
def place (state : Bytes) : Nat := ofLittleEndian (state.take 4) % 65536

def state (seed header : Bytes) (nonce : Nat) : Nat → Bytes
  | 0 => sha3OfBytes (header ++ le64 nonce)
  | n + 1 =>
    sha3OfBytes (state seed header nonce n ++ chunk seed (place (state seed header nonce n)))

def digest (previousHash minerAddress : Bytes) (rounds : Nat) (header : Bytes) (nonce : Nat) :
    Bytes :=
  sha3OfBytes (state (seed previousHash minerAddress) header nonce rounds)

end Padwork.Work
