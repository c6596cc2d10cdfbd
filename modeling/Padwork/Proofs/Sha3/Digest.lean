import Mathlib.Data.List.OfFn
import Padwork.Proofs.Keccak.Permutation
import Padwork.Proofs.Sha3.Blocks

/-!
# The digest is SHA3-256

The state of the hasher is the state of the standard's sponge: a block is added to
the first 1088 bits, and the permutation is Keccak-f[1600]. So after the blocks of a
message the first four lanes are the digest that the standard defines.
-/
namespace Padwork.Sha3
open Parameters Fips202 Keccak

/-- The lane at (x, y) of a block is its word number x + 5y, as far as the block has words. -/
theorem lane_toState (b : Block) (x y : Fin 5) :
    b.toState.lane x y =
      if h : x.val + 5 * y.val < 17 then b.word (x.val + 5 * y.val) (by simp only [rate]; omega)
      else 0 := by
  match y with
  | 0 | 1 | 2 | 3 | 4 => match x with
    | 0 | 1 | 2 | 3 | 4 => rfl

theorem bit_word (b : Block) (i : Nat) (hi : 8 * i + 7 < rate) (z : Fin 64) :
    bit (b.word i hi) z = (bitsOfBytes b.toList).getD (64 * i + z.val) false := by
  have hq : (64 * i + z.val) / 8 = 8 * i + z.val / 8 := by omega
  have hr : (64 * i + z.val) % 8 = z.val % 8 := by omega
  have hz : z.val / 8 < 8 := by omega
  have hbyte (k : Nat) (hk : 8 * i + k < rate) : b[8 * i + k] = b.toList.getD (8 * i + k) 0 := by
    rw [List.getD_eq_getElem _ _ (by rwa [Vector.length_toList]), Vector.getElem_toList]
  rw [Block.word, bit_wordOfBytes, getD_bitsOfBytes, getD_bitsOfBytes, hq, hr]
  congr 2
  generalize z.val / 8 = q at hz ⊢
  rw [← hbyte q (by omega)]
  interval_cases q <;> rfl

@[simp] theorem length_bitsOfBytes_toList (b : Block) : (bitsOfBytes b.toList).length = 1088 := by
  rw [length_bitsOfBytes, Vector.length_toList]
  rfl

/-- A block on the first lanes is the block of bits, with zeros for the capacity. -/
theorem bits_toState (b : Block) :
    b.toState.bits =
      StateArray.ofString (bitsOfBytes b.toList ++ List.replicate 512 false) := by
  ext x y z
  have hlen := length_bitsOfBytes_toList b
  have hplace : 64 * (5 * y.val + x.val) = 64 * (x.val + 5 * y.val) := by omega
  rw [State.bits, lane_toState, StateArray.ofString, hplace]
  by_cases h : x.val + 5 * y.val < 17
  · rw [dif_pos h, bit_word, List.getD_append _ _ _ _ (by omega)]
  · rw [dif_neg h, bit_zero, List.getD_append_right _ _ _ _ (by omega), List.getD_replicate]
    omega

theorem ofString_xorBits (s t : BitString) (hs : s.length = 1600) (ht : t.length = 1600) :
    StateArray.ofString (xorBits s t) =
      fun x y z => StateArray.ofString s x y z ^^ StateArray.ofString t x y z := by
  ext x y z
  have hi : 64 * (5 * y.val + x.val) + z.val < 1600 := by omega
  simp only [StateArray.ofString, xorBits]
  rw [List.getD_eq_getElem _ _ (by simpa [hs, ht] using hi),
    List.getD_eq_getElem _ _ (by omega), List.getD_eq_getElem _ _ (by omega), List.getElem_zipWith]

/-- Absorbing a block is one step of the standard's sponge. -/
theorem string_absorb (s : State) (b : Block) :
    (Sha3.absorb s b).bits.string =
      keccakF (xorBits s.bits.string (bitsOfBytes b.toList ++ List.replicate 512 false)) := by
  have hlen : (bitsOfBytes b.toList ++ List.replicate 512 false).length = 1600 := by
    rw [List.length_append, length_bitsOfBytes_toList, List.length_replicate]
  rw [keccakF, ofString_xorBits _ _ (StateArray.length_string _) hlen, StateArray.ofString_string,
    ← bits_toState, ← State.bits_xor, ← bits_permute]
  rfl

theorem string_foldl_absorb (blocks : List Block) (s : State) :
    (blocks.foldl Sha3.absorb s).bits.string =
      Fips202.absorb keccakF 1088 512 blocks.length (bitsOfBytes (bytesOf blocks))
        s.bits.string := by
  induction blocks generalizing s with
  | nil => rw [List.foldl_nil, List.length_nil, Fips202.absorb]
  | cons b blocks ih =>
    have hlen := length_bitsOfBytes_toList b
    rw [List.foldl_cons, ih, string_absorb, List.length_cons, Fips202.absorb, bytesOf_cons,
      bitsOfBytes_append, ← hlen, List.take_left, List.drop_left]

theorem string_bits (s : State) : s.bits.string = s.toLanes.toList.flatMap bitsOfWord := by
  have hlanes : s.toLanes.toList =
      List.ofFn fun i : Fin 25 => s.lane ⟨i.val % 5, by omega⟩ ⟨i.val / 5, by omega⟩ := rfl
  rw [hlanes, List.flatMap_def, List.map_ofFn, StateArray.string, List.ofFn_mul (m := 25) (n := 64)]
  apply congrArg List.flatten
  apply congrArg List.ofFn
  funext i
  apply congrArg List.ofFn
  funext j
  have hx : (i.val * 64 + j.val) / 64 % 5 = i.val % 5 := by omega
  have hy : (i.val * 64 + j.val) / 320 = i.val / 5 := by omega
  have hz : (i.val * 64 + j.val) % 64 = j.val := by omega
  simp only [hx, hy, hz]
  rfl

theorem bitsOfBytes_squeeze (s : State) :
    bitsOfBytes (Sha3.squeeze s).toList = s.bits.string.take 256 := by
  have hlanes : s.toLanes.toList =
      [s.y0.x0, s.y0.x1, s.y0.x2, s.y0.x3] ++ s.toLanes.toList.drop 4 := rfl
  rw [string_bits, hlanes, List.flatMap_append, List.take_left' (by simp), Sha3.squeeze,
    Vector.toList_append, Vector.toList_append, Vector.toList_append]
  simp [bitsOfBytes_littleEndian]

/-- The digest is the front of the state that the blocks of the message leave. -/
theorem hash_eq_squeeze (data : Bytes) :
    hash data = Sha3.squeeze ((blocksOf data).foldl Sha3.absorb .zero) := by
  simp only [hash, Hasher.digest, Hasher.update, Hasher.empty, blocksOf, List.foldl_append,
    List.foldl_cons, List.foldl_nil]

theorem string_zero : State.zero.bits.string = List.replicate 1600 false := by
  refine List.eq_replicate_iff.mpr ⟨StateArray.length_string _, ?_⟩
  intro b hb
  rw [State.bits_zero, StateArray.string, List.mem_ofFn] at hb
  obtain ⟨_, rfl⟩ := hb
  rfl

theorem sha3_bitsOfBytes (data : Bytes) :
    sha3 (bitsOfBytes data) =
      ((blocksOf data).foldl Sha3.absorb .zero).bits.string.take 256 := by
  have hcount : (bitsOfBytes (bytesOf (blocksOf data))).length / 1088 = (blocksOf data).length := by
    rw [length_bitsOfBytes, length_bytesOf, ← Nat.mul_assoc]
    exact Nat.mul_div_cancel_left _ (by decide)
  have hrate : 1600 - 512 = 1088 := rfl
  have hwidth : 1088 + 512 = 1600 := rfl
  rw [sha3, keccak, sponge, squeeze_eq_take _ _ _ _ (by decide), string_foldl_absorb, string_zero,
    ← hcount, bitsOfBytes_blocksOf, hrate, hwidth]

/-- The hash of a byte string is its SHA3-256, bit by bit. -/
theorem bitsOfBytes_hash (data : Bytes) :
    bitsOfBytes (hash data).toList = sha3 (bitsOfBytes data) := by
  rw [hash_eq_squeeze, bitsOfBytes_squeeze, sha3_bitsOfBytes]

theorem toList_hash (data : Bytes) : (hash data).toList = sha3OfBytes data := by
  rw [sha3OfBytes, sha3_bitsOfBytes, ← bitsOfBytes_squeeze, ← hash_eq_squeeze,
    bytesOfBits_bitsOfBytes]

end Padwork.Sha3
