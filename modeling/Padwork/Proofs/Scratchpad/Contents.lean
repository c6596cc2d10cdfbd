import Padwork.Proofs.Bytes.Numbers
import Padwork.Scratchpad

/-!
# The contents of a scratchpad

A scratchpad is filled in place, chunk by chunk. A chunk that has been written is the
seed's, whatever was there before and whichever chunks are written after it. So once
all are written nothing of the old contents is left. As a string of bytes, a
scratchpad has its chunks one after the other, in the order of their indices.
-/
namespace Padwork.Scratchpad
open Parameters

/-- The complete table of a seed. -/
def ofSeed (seed : Bytes32) : Scratchpad := ⟨.ofFn fun i => expandChunk seed (.ofNat i)⟩

variable {order : List (Fin chunkCount)} {i : Fin chunkCount}

theorem chunks_write_self (p : Scratchpad) (seed : Bytes32) (i : Fin chunkCount) :
    (p.write seed i).chunks.get i = expandChunk seed (.ofNat i) := Vector.getElem_set_self _

theorem chunks_write_of_ne (p : Scratchpad) (seed : Bytes32) {i j : Fin chunkCount} (h : i ≠ j) :
    (p.write seed j).chunks.get i = p.chunks.get i :=
  Vector.getElem_set_ne j.isLt i.isLt fun hval => h (Fin.ext hval.symm)

theorem chunks_foldl_write_of_notMem (p : Scratchpad) (seed : Bytes32) (h : i ∉ order) :
    (order.foldl (·.write seed ·) p).chunks.get i = p.chunks.get i := by
  induction order generalizing p with
  | nil => rfl
  | cons j order ih =>
    rw [List.mem_cons, not_or] at h
    rw [List.foldl_cons, ih _ h.2, chunks_write_of_ne p seed h.1]

/-- After writes in any order, the chunks that were written are the seed's. -/
theorem chunks_foldl_write_of_mem (p : Scratchpad) (seed : Bytes32) (h : i ∈ order) :
    (order.foldl (·.write seed ·) p).chunks.get i = expandChunk seed (.ofNat i) := by
  induction order generalizing p with
  | nil => cases h
  | cons j order ih =>
    rw [List.foldl_cons]
    by_cases hi : i ∈ order
    · exact ih _ hi
    · -- the first write is the last one of this chunk
      obtain rfl | hi' := List.mem_cons.mp h
      · rw [chunks_foldl_write_of_notMem _ seed hi, chunks_write_self]
      · exact absurd hi' hi

theorem ext_chunks {p q : Scratchpad} (h : ∀ i : Fin chunkCount, p.chunks.get i = q.chunks.get i) :
    p = q := by
  cases p
  cases q
  rw [mk.injEq]
  exact Vector.ext fun i hi => h ⟨i, hi⟩

theorem toNat_ofNat_index (i : Fin chunkCount) : (UInt64.ofNat i.val).toNat = i.val :=
  UInt64.toNat_ofNat_of_lt' (Nat.lt_trans i.isLt (by decide))

theorem chunks_ofSeed (seed : Bytes32) (i : Fin chunkCount) :
    (ofSeed seed).chunks.get i = expandChunk seed (.ofNat i) := Vector.getElem_ofFn _

/-- Writes that leave no chunk out give the seed's table, in any order and whatever was there
before. -/
theorem foldl_write_eq_ofSeed (p : Scratchpad) (seed : Bytes32) (h : ∀ i, i ∈ order) :
    order.foldl (·.write seed ·) p = ofSeed seed := by
  apply ext_chunks
  intro i
  rw [chunks_foldl_write_of_mem p seed (h i), chunks_ofSeed]

/-- The chunks of a string of chunks stand at the multiples of their size. -/
theorem take_drop_flatMap_toList (chunks : List Bytes32) (i : Nat) (hi : i < chunks.length) :
    ((chunks.flatMap (·.toList)).drop (32 * i)).take 32 = chunks[i].toList := by
  induction chunks generalizing i with
  | nil => cases hi
  | cons chunk chunks ih =>
    cases i with
    | zero =>
      rw [Nat.mul_zero, List.drop_zero, List.flatMap_cons, List.take_left' (by simp),
        List.getElem_cons_zero]
    | succ i =>
      have hplace : 32 * (i + 1) = chunk.toList.length + 32 * i := by
        rw [Vector.length_toList]
        omega
      rw [List.flatMap_cons, hplace, List.drop_length_add_append, ih, List.getElem_cons_succ]

theorem length_flatMap_toList (chunks : List Bytes32) :
    (chunks.flatMap (·.toList)).length = 32 * chunks.length := by
  induction chunks with
  | nil => rfl
  | cons chunk chunks ih =>
    rw [List.flatMap_cons, List.length_append, Vector.length_toList, ih, List.length_cons]
    omega

@[simp] theorem length_bytes (p : Scratchpad) : p.bytes.length = scratchpadSize := by
  rw [bytes, length_flatMap_toList, Vector.length_toList, Nat.mul_comm]

theorem take_drop_bytes (p : Scratchpad) (i : Fin chunkCount) :
    (p.bytes.drop (32 * i.val)).take 32 = (p.chunks.get i).toList := by
  rw [bytes, take_drop_flatMap_toList _ _ (by rw [Vector.length_toList]; exact i.isLt),
    Vector.getElem_toList]
  rfl

theorem bytes_zeroed : zeroed.bytes = List.replicate scratchpadSize 0 := by
  refine List.eq_replicate_iff.mpr ⟨length_bytes zeroed, ?_⟩
  intro byte hbyte
  rw [bytes, zeroed, Vector.toList_replicate, List.mem_flatMap] at hbyte
  obtain ⟨chunk, hchunk, hmem⟩ := hbyte
  rw [List.eq_of_mem_replicate hchunk, Vector.toList_replicate] at hmem
  exact List.eq_of_mem_replicate hmem

/-- Any word selects a chunk, by its remainder. -/
theorem toList_chunk (p : Scratchpad) (word : UInt64) :
    (p.chunk word).toList = (p.bytes.drop (32 * (word.toNat % chunkCount))).take 32 := by
  rw [← val_index, take_drop_bytes, chunk]

theorem take_drop_bytes_ofSeed (seed : Bytes32) (i : Fin chunkCount) :
    ((ofSeed seed).bytes.drop (32 * i.val)).take 32 =
      (Sha3.hash (seed.toList ++ le64 i.val)).toList := by
  rw [take_drop_bytes, chunks_ofSeed, expandChunk, toList_littleEndian, toNat_ofNat_index]

end Padwork.Scratchpad
