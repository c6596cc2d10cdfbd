import Padwork.Sha3.Hasher
import Padwork.Proofs.Fips202.Sponge

/-!
# A stream of bytes in blocks

Cutting a stream into blocks keeps every byte in its place: the blocks that leave a
buffer and the bytes that stay are the bytes held before and the bytes pushed. Since
fewer bytes than a block stay, this fixes the blocks, so the digest of a hasher is
fixed by the bytes that it has taken in. The last block of a message holds what
stayed, the domain byte, zeros and the final one bit; of what earlier blocks have
left in the buffer it holds nothing.
-/
namespace Padwork.Sha3
open Parameters Fips202

def bytesOf (blocks : List Block) : Bytes := blocks.flatMap (·.toList)

@[simp] theorem bytesOf_nil : bytesOf [] = [] := rfl

@[simp] theorem bytesOf_cons (b : Block) (blocks : List Block) :
    bytesOf (b :: blocks) = b.toList ++ bytesOf blocks := rfl

@[simp] theorem bytesOf_append (first second : List Block) :
    bytesOf (first ++ second) = bytesOf first ++ bytesOf second := List.flatMap_append

@[simp] theorem length_bytesOf (blocks : List Block) :
    (bytesOf blocks).length = rate * blocks.length := by
  induction blocks with
  | nil => rfl
  | cons b blocks ih =>
    rw [bytesOf_cons, List.length_append, Vector.length_toList, ih, List.length_cons,
      Nat.mul_succ, Nat.add_comm]

theorem Block.toList_write (b : Block) (start : Nat) (bytes : Bytes)
    (h : start + bytes.length ≤ rate) :
    (b.write start bytes h).toList =
      b.toList.take start ++ bytes ++ b.toList.drop (start + bytes.length) := by
  induction bytes generalizing b start with
  | nil => simp [write]
  | cons byte tail ih =>
    rw [List.length_cons] at h
    have hstart : start < b.toList.length := by
      rw [Vector.length_toList]
      omega
    have hplace : start - min start rate = 0 := by omega
    have hcount : start + 1 + tail.length = start + (tail.length + 1) := by omega
    rw [write, ih, Vector.toList_set, List.take_set, List.drop_set_of_lt (by omega),
      List.take_succ_eq_append_getElem hstart, hcount, List.length_cons]
    simp [hplace]

theorem Block.take_write (b : Block) (start : Nat) (bytes : Bytes)
    (h : start + bytes.length ≤ rate) :
    (b.write start bytes h).toList.take (start + bytes.length) =
      b.toList.take start ++ bytes := by
  have hlength : (b.toList.take start ++ bytes).length = start + bytes.length := by
    rw [List.length_append, List.length_take, Vector.length_toList]
    omega
  rw [toList_write, ← hlength, List.take_left]

namespace Buffer

theorem bytes_fill (b : Buffer) (data : Bytes) :
    bytesOf (b.fill data).block?.toList ++ ((b.fill data).buffer.bytes ++ (b.fill data).rest) =
      b.bytes ++ data := by
  have h : b.bytes ++ data.take (rate - b.count) ++ data.drop (rate - b.count) =
      b.bytes ++ data := by
    rw [List.append_assoc, List.take_append_drop]
  rw [← h]
  simp only [fill]
  split
  · next full =>
    have hdrop : b.block.toList.drop (b.count + (data.take (rate - b.count)).length) = [] :=
      List.drop_of_length_le (by rw [full, Vector.length_toList])
    simp only [bytes, Block.toList_write, hdrop, Option.toList_some, bytesOf_cons, bytesOf_nil,
      List.take_zero, List.append_nil, List.nil_append]
  · simp only [bytes, Block.take_write, Option.toList_none, bytesOf_nil, List.nil_append]

/-- The blocks that leave the buffer and the bytes that stay are all bytes, in order. -/
theorem bytes_push (b : Buffer) (data : Bytes) :
    bytesOf (b.push data).1 ++ (b.push data).2.bytes = b.bytes ++ data := by
  fun_induction b.push data with
  | case1 b => simp
  | case2 b byte tail pass blocks last h ih =>
    rw [h] at ih
    rw [bytesOf_append, List.append_assoc, ih]
    exact bytes_fill b (byte :: tail)

theorem length_push (b : Buffer) (data : Bytes) :
    rate * (b.push data).1.length + (b.push data).2.count = b.count + data.length := by
  have h := congrArg List.length (bytes_push b data)
  rwa [List.length_append, List.length_append, length_bytesOf, length_bytes, length_bytes] at h

end Buffer

/-- Blocks and fewer bytes than a block can be read off the bytes that they make up. -/
theorem eq_of_bytesOf_append_eq {blocks blocks' : List Block} {rest rest' : Bytes}
    (hr : rest.length < rate) (hr' : rest'.length < rate)
    (h : bytesOf blocks ++ rest = bytesOf blocks' ++ rest') :
    blocks = blocks' ∧ rest = rest' := by
  have hlen := congrArg List.length h
  rw [List.length_append, List.length_append, length_bytesOf, length_bytesOf] at hlen
  induction blocks generalizing blocks' with
  | nil =>
    cases blocks' with
    | nil => exact ⟨rfl, h⟩
    | cons b' blocks' =>
      rw [List.length_nil, List.length_cons, Nat.mul_succ] at hlen
      omega
  | cons b blocks ih =>
    cases blocks' with
    | nil =>
      rw [List.length_nil, List.length_cons, Nat.mul_succ] at hlen
      omega
    | cons b' blocks' =>
      rw [bytesOf_cons, bytesOf_cons, List.append_assoc, List.append_assoc] at h
      obtain ⟨hb, htail⟩ := List.append_inj h (by simp)
      rw [List.length_cons, List.length_cons, Nat.mul_succ, Nat.mul_succ] at hlen
      obtain ⟨hblocks, hrest⟩ := ih htail (by omega)
      exact ⟨by rw [Vector.toList_inj.mp hb, hblocks], hrest⟩

/-- The bytes that pad a message when `zeros` bytes remain of its last block after the domain
byte. With none remaining, the domain byte also carries the last bit. -/
def padding : Nat → Bytes
  | 0 => [0x86]
  | zeros + 1 => domain :: (List.replicate zeros 0 ++ [0x80])

theorem Buffer.toList_padded (b : Buffer) :
    b.padded.toList = b.bytes ++ domain :: List.replicate (rate - 1 - b.count) 0 := by
  have hroom := b.room
  apply List.ext_getElem
  · rw [Vector.length_toList, List.length_append, length_bytes, List.length_cons,
      List.length_replicate]
    omega
  intro i hi _
  rw [Vector.length_toList] at hi
  rw [Vector.getElem_toList]
  rcases Nat.lt_trichotomy i b.count with hlt | heq | hgt
  · rw [List.getElem_append_left (by rwa [length_bytes])]
    simp [padded, bytes, hlt, Nat.ne_of_gt hlt]
  · subst heq
    simp [padded]
  · obtain ⟨k, rfl⟩ := Nat.exists_eq_add_of_lt hgt
    have hplace : b.count + k + 1 - b.count = k + 1 := by omega
    rw [List.getElem_append_right (by rw [length_bytes]; omega)]
    simp [padded, hplace, Nat.ne_of_lt hgt, Nat.not_lt_of_gt hgt]

theorem Buffer.toList_closed (b : Buffer) :
    b.closed.toList = b.bytes ++ padding (rate - 1 - b.count) := by
  have hroom := b.room
  have hlength := b.length_bytes
  have hlast : b.padded[rate - 1] = b.padded.toList.getD (rate - 1) 0 := by
    rw [List.getD_eq_getElem _ _ (by simp), Vector.getElem_toList]
  rw [closed, Vector.toList_set, hlast, toList_padded,
    List.getD_append_right _ _ _ _ (by omega), List.set_append_right _ _ (by omega), hlength]
  -- the last place of the block is the domain byte's own, or one of the zeros behind it
  cases rate - 1 - b.count with
  | zero => rfl
  | succ zeros => simp [padding, List.replicate_succ']

theorem Buffer.closed_eq_of_bytes_eq {b b' : Buffer} (h : b.bytes = b'.bytes) :
    b.closed = b'.closed := by
  have hcount : b.count = b'.count := by
    rw [← length_bytes, h, length_bytes]
  apply Vector.toList_inj.mp
  rw [toList_closed, toList_closed, h, hcount]

/-- Blocks that have left a buffer and the last block are fixed by all bytes that came in. -/
theorem Buffer.eq_of_bytesOf_append_bytes_eq {b b' : Buffer} {blocks blocks' : List Block}
    (h : bytesOf blocks ++ b.bytes = bytesOf blocks' ++ b'.bytes) :
    blocks = blocks' ∧ b.closed = b'.closed := by
  obtain ⟨hblocks, hrest⟩ := eq_of_bytesOf_append_eq (by rw [length_bytes]; exact b.room)
    (by rw [length_bytes]; exact b'.room) h
  exact ⟨hblocks, closed_eq_of_bytes_eq hrest⟩

/-- The padding bytes are the two bits that mark the hash and the padding pad10*1. -/
theorem bitsOfBytes_padding (zeros : Nat) :
    bitsOfBytes (padding zeros) =
      [false, true] ++ (true :: List.replicate (8 * zeros + 4) false ++ [true]) := by
  cases zeros with
  | zero => rfl
  | succ zeros =>
    have hdomain : bitsOfByte domain = [false, true, true] ++ List.replicate 5 false := rfl
    have hlast : bitsOfByte 0x80 = List.replicate 7 false ++ [true] := rfl
    have hcount : 8 * (zeros + 1) + 4 = 5 + (8 * zeros + 7) := by omega
    rw [padding, bitsOfBytes_cons, bitsOfBytes_append, bitsOfBytes_zeros, bitsOfBytes_cons, hdomain,
      hlast, hcount, ← List.replicate_append_replicate, ← List.replicate_append_replicate]
    simp only [bitsOfBytes_nil, List.append_nil, List.append_assoc, List.cons_append,
      List.nil_append]

/-- The hasher has taken in these bytes: their full blocks are absorbed, and the others wait. -/
def Hasher.Holds (h : Hasher) (data : Bytes) : Prop :=
  ∃ blocks, bytesOf blocks ++ h.buffer.bytes = data ∧ h.state = blocks.foldl absorb .zero

namespace Hasher

variable {h other : Hasher} {data : Bytes}

theorem holds_empty : empty.Holds [] := ⟨[], rfl, rfl⟩

theorem Holds.update (hold : h.Holds data) (piece : Bytes) :
    (h.update piece).Holds (data ++ piece) := by
  obtain ⟨blocks, hbytes, hstate⟩ := hold
  refine ⟨blocks ++ (h.buffer.push piece).1, ?_, ?_⟩
  · rw [Hasher.update, bytesOf_append, List.append_assoc, Buffer.bytes_push, ← List.append_assoc,
      hbytes]
  · rw [Hasher.update, List.foldl_append, hstate]

/-- Hashers that have taken in the same bytes have the same digest, however the bytes came. -/
theorem Holds.digest_eq (hold : h.Holds data) (hother : other.Holds data) :
    h.digest = other.digest := by
  obtain ⟨blocks, hbytes, hstate⟩ := hold
  obtain ⟨blocks', hbytes', hstate'⟩ := hother
  obtain ⟨hblocks, hclosed⟩ := Buffer.eq_of_bytesOf_append_bytes_eq (hbytes.trans hbytes'.symm)
  rw [digest, digest, hstate, hstate', hblocks, hclosed]

theorem Holds.digest_eq_hash (hold : h.Holds data) : h.digest = hash data :=
  hold.digest_eq (holds_empty.update data)

end Hasher

theorem hashConcat_eq_hash_append (first second : Bytes) :
    hashConcat first second = hash (first ++ second) :=
  ((Hasher.holds_empty.update first).update second).digest_eq_hash

/-- The blocks in which a message reaches the sponge. -/
def blocksOf (data : Bytes) : List Block :=
  (Buffer.empty.push data).1 ++ [(Buffer.empty.push data).2.closed]

/-- The blocks of a message are the message and its padding. -/
theorem bytesOf_blocksOf (data : Bytes) :
    bytesOf (blocksOf data) = data ++ padding (rate - 1 - data.length % rate) := by
  have hbytes := Buffer.bytes_push .empty data
  have hlength := Buffer.length_push .empty data
  have hroom := (Buffer.empty.push data).2.room
  have hempty : Buffer.empty.count = 0 := rfl
  rw [Buffer.bytes_empty, List.nil_append] at hbytes
  rw [hempty, Nat.zero_add] at hlength
  have hmod : (Buffer.empty.push data).2.count = data.length % rate := by
    rw [← hlength, Nat.mul_add_mod, Nat.mod_eq_of_lt hroom]
  rw [blocksOf, bytesOf_append, bytesOf_cons, bytesOf_nil, List.append_nil, Buffer.toList_closed,
    ← List.append_assoc, hbytes, hmod]

/-- The blocks of a message are, bit by bit, the padded message of the standard. -/
theorem bitsOfBytes_blocksOf (data : Bytes) :
    bitsOfBytes (bytesOf (blocksOf data)) =
      (bitsOfBytes data ++ [false, true]) ++
        pad 1088 (bitsOfBytes data ++ [false, true]).length := by
  have hpad : (-((8 * data.length + 2 : Nat) : Int) - 2) % ((1088 : Nat) : Int) =
      ((8 * (rate - 1 - data.length % rate) + 4 : Nat) : Int) := by
    simp only [rate]
    omega
  rw [bytesOf_blocksOf, bitsOfBytes_append, bitsOfBytes_padding, List.length_append,
    length_bitsOfBytes, List.append_assoc, pad]
  simp only [List.length_cons, List.length_nil, Nat.zero_add, Nat.reduceAdd, hpad,
    Int.toNat_natCast]

end Padwork.Sha3
