import Padwork.Bytes
import Padwork.Parameters
import Padwork.Keccak.State

/-!
# Blocks of the sponge

A message reaches the sponge in blocks of 136 bytes. A buffer is one block that is
written over and over: the bytes that wait for their block to become full stand at
its front, always fewer than a block, and bytes of earlier blocks behind them.
`push` cuts blocks off a stream of bytes, and `closed` pads what is left to the
last block. The cut does not depend on how the stream was split into pieces.
-/
namespace Padwork.Sha3
open Parameters

abbrev Block := Vector UInt8 rate

namespace Block

@[inline] def word (b : Block) (i : Nat) (h : 8 * i + 7 < rate) : UInt64 :=
  wordOfBytes b[8 * i] b[8 * i + 1] b[8 * i + 2] b[8 * i + 3] b[8 * i + 4] b[8 * i + 5]
    b[8 * i + 6] b[8 * i + 7]

/-- A block on the first lanes of an otherwise zero state. -/
def toState (b : Block) : Keccak.State :=
  ⟨⟨b.word 0 (by decide), b.word 1 (by decide), b.word 2 (by decide), b.word 3 (by decide),
     b.word 4 (by decide)⟩,
   ⟨b.word 5 (by decide), b.word 6 (by decide), b.word 7 (by decide), b.word 8 (by decide),
     b.word 9 (by decide)⟩,
   ⟨b.word 10 (by decide), b.word 11 (by decide), b.word 12 (by decide), b.word 13 (by decide),
     b.word 14 (by decide)⟩,
   ⟨b.word 15 (by decide), b.word 16 (by decide), 0, 0, 0⟩,
   .zero⟩

def write (b : Block) (start : Nat) (bytes : Bytes) (h : start + bytes.length ≤ rate) : Block :=
  match bytes with
  | [] => b
  | byte :: tail =>
    write (b.set start byte (by rw [List.length_cons] at h; omega)) (start + 1) tail
      (by rw [List.length_cons] at h; omega)

end Block

/-- The bytes that wait for the rest of their block are the first `count` of `block`. -/
structure Buffer where
  block : Block
  count : Nat
  room : count < rate

/-- What one pass over a piece of data leaves behind. -/
structure Filled where
  block? : Option Block
  buffer : Buffer
  rest : Bytes

namespace Buffer

def empty : Buffer := ⟨.replicate rate 0, 0, by decide⟩

def bytes (b : Buffer) : Bytes := b.block.toList.take b.count

@[simp] theorem length_bytes (b : Buffer) : b.bytes.length = b.count := by
  rw [bytes, List.length_take, Vector.length_toList, Nat.min_eq_left (Nat.le_of_lt b.room)]

@[simp] theorem bytes_empty : empty.bytes = [] := rfl

/-- Takes in as many bytes as fit. A block that becomes full is passed on, and the next byte goes
to its front. -/
def fill (b : Buffer) (data : Bytes) : Filled :=
  let part := data.take (rate - b.count)
  have hpart : b.count + part.length ≤ rate := by
    have := b.room
    rw [List.length_take]
    omega
  let block := b.block.write b.count part hpart
  let rest := data.drop (rate - b.count)
  if full : b.count + part.length = rate then ⟨some block, ⟨block, 0, by decide⟩, rest⟩
  else ⟨none, ⟨block, b.count + part.length, Nat.lt_of_le_of_ne hpart full⟩, rest⟩

theorem rest_fill (b : Buffer) (data : Bytes) :
    (b.fill data).rest = data.drop (rate - b.count) := by
  simp only [fill]
  split <;> rfl

theorem length_rest_fill_lt (b : Buffer) {data : Bytes} (h : data ≠ []) :
    (b.fill data).rest.length < data.length := by
  have hb := b.room
  have hd := List.length_pos_iff.mpr h
  rw [rest_fill, List.length_drop]
  omega

/-- Cuts the blocks off the held bytes and `data` together, and holds the remainder. -/
def push (b : Buffer) (data : Bytes) : List Block × Buffer :=
  match data with
  | [] => ([], b)
  | byte :: tail =>
    let pass := b.fill (byte :: tail)
    let (blocks, last) := pass.buffer.push pass.rest
    (pass.block?.toList ++ blocks, last)
termination_by data.length
decreasing_by exact length_rest_fill_lt b (List.cons_ne_nil _ _)

def padded (b : Buffer) : Block :=
  (Vector.ofFn fun i => if i.val < b.count then b.block[i] else 0).set b.count domain b.room

/-- The last block: the padded bytes, with a one as the very last bit. -/
def closed (b : Buffer) : Block := b.padded.set (rate - 1) (b.padded[rate - 1] ||| 0x80)

end Buffer

end Padwork.Sha3
