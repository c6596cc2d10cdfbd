import Mathlib.Tactic.IntervalCases
import Padwork.Proofs.Fips202.Sponge

/-!
# Bits of words

A word of 64 bits is eight bytes, least significant first, and a byte string is
read with the lowest bit of each byte first. So the bits of a word, the lowest
first, are the bits of its bytes.
-/
namespace Padwork
open Fips202

/-- The bit of a word with the given number. Number 0 is the lowest. -/
def bit (w : UInt64) (z : Fin 64) : Bool := w.toNat.testBit z

@[simp] theorem bit_zero (z : Fin 64) : bit 0 z = false := by
  simp [bit]

@[simp] theorem bit_xor (v w : UInt64) (z : Fin 64) : bit (v ^^^ w) z = (bit v z ^^ bit w z) := by
  simp [bit]

@[simp] theorem bit_and (v w : UInt64) (z : Fin 64) : bit (v &&& w) z = (bit v z && bit w z) := by
  simp [bit]

@[simp] theorem bit_or (v w : UInt64) (z : Fin 64) : bit (v ||| w) z = (bit v z || bit w z) := by
  simp [bit]

@[simp] theorem bit_not (w : UInt64) (z : Fin 64) : bit (~~~w) z = !bit w z := by
  have h : (~~~w).toNat = 2 ^ 64 - (w.toNat + 1) := by
    rw [UInt64.toNat_not, Nat.sub_sub, Nat.add_comm w.toNat 1]
    rfl
  rw [bit, h, Nat.testBit_two_pow_sub_succ w.toNat_lt]
  simp [bit]

theorem testBit_word (w : UInt64) {i : Nat} (hi : 64 ≤ i) : w.toNat.testBit i = false :=
  Nat.testBit_lt_two_pow (Nat.lt_of_lt_of_le w.toNat_lt (Nat.pow_le_pow_right Nat.two_pos hi))

/-- A byte that is shifted to place `i` of a word has its bits there and nowhere else. -/
theorem bit_shiftLeft_byte (b : UInt8) (s : UInt64) (i : Nat) (hi : i < 8) (hs : s.toNat = 8 * i)
    (z : Fin 64) :
    bit (b.toUInt64 <<< s) z = (decide (z.val / 8 = i) && b.toNat.testBit (z.val % 8)) := by
  have hz := z.isLt
  have hmod : 8 * i % 64 = 8 * i := Nat.mod_eq_of_lt (by omega)
  simp only [bit, UInt64.toNat_shiftLeft, UInt8.toNat_toUInt64, hs, hmod, Nat.testBit_mod_two_pow,
    Nat.testBit_shiftLeft, hz, decide_true, Bool.true_and]
  by_cases hq : z.val / 8 = i
  · have hle : 8 * i ≤ z.val := by omega
    have hr : z.val - 8 * i = z.val % 8 := by omega
    simp [hq, hle, hr]
  · by_cases hle : 8 * i ≤ z.val
    · rw [testBit_byte b (by omega : 8 ≤ z.val - 8 * i)]
      simp [hq]
    · simp [hq, hle]

theorem bit_wordOfBytes (b0 b1 b2 b3 b4 b5 b6 b7 : UInt8) (z : Fin 64) :
    bit (wordOfBytes b0 b1 b2 b3 b4 b5 b6 b7) z =
      (bitsOfBytes [b0, b1, b2, b3, b4, b5, b6, b7]).getD z.val false := by
  have h0 : b0.toUInt64 = b0.toUInt64 <<< 0 := by simp
  rw [getD_bitsOfBytes, wordOfBytes, h0]
  simp only [bit_or, bit_shiftLeft_byte b0 0 0 (by decide) rfl,
    bit_shiftLeft_byte b1 8 1 (by decide) rfl, bit_shiftLeft_byte b2 16 2 (by decide) rfl,
    bit_shiftLeft_byte b3 24 3 (by decide) rfl, bit_shiftLeft_byte b4 32 4 (by decide) rfl,
    bit_shiftLeft_byte b5 40 5 (by decide) rfl, bit_shiftLeft_byte b6 48 6 (by decide) rfl,
    bit_shiftLeft_byte b7 56 7 (by decide) rfl]
  have hq : z.val / 8 < 8 := by omega
  generalize z.val / 8 = q at hq ⊢
  interval_cases q <;> simp

theorem getD_littleEndian (w : UInt64) (i : Nat) (hi : i < 8) :
    (littleEndian w).toList.getD i 0 = .ofNat (w.toNat / 2 ^ (8 * i)) := by
  have h0 : w.toUInt8 = (w >>> 0).toUInt8 := by simp
  have hbyte (s : UInt64) (hs : s.toNat = 8 * i) :
      (w >>> s).toUInt8 = .ofNat (w.toNat / 2 ^ (8 * i)) := by
    apply UInt8.toNat_inj.mp
    rw [UInt64.toNat_toUInt8, UInt64.toNat_shiftRight, hs,
      Nat.mod_eq_of_lt (by omega : 8 * i < 64), Nat.shiftRight_eq_div_pow, UInt8.toNat_ofNat']
  rw [littleEndian, h0]
  interval_cases i <;> exact hbyte _ rfl

def bitsOfWord (w : UInt64) : BitString := List.ofFn (bit w)

@[simp] theorem length_bitsOfWord (w : UInt64) : (bitsOfWord w).length = 64 := List.length_ofFn

theorem bitsOfBytes_littleEndian (w : UInt64) :
    bitsOfBytes (littleEndian w).toList = bitsOfWord w := by
  apply List.ext_getElem
  · rw [length_bitsOfBytes, Vector.length_toList, length_bitsOfWord]
  · intro i hi hi'
    rw [length_bitsOfWord] at hi'
    have hr : i % 8 < 8 := Nat.mod_lt _ (Nat.zero_lt_succ 7)
    rw [← List.getD_eq_getElem _ false hi, getD_bitsOfBytes, getD_littleEndian _ _ (by omega),
      UInt8.toNat_ofNat', Nat.testBit_mod_two_pow, Nat.testBit_div_two_pow, Nat.mod_add_div]
    simp only [hr, decide_true, Bool.true_and, bitsOfWord, List.getElem_ofFn, bit]

end Padwork
