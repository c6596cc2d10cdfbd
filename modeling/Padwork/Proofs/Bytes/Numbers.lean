import Padwork.Proofs.Bytes.Bits

/-!
# Byte strings as numbers

A byte string is a natural number to the base 256, with its least or its most
significant byte first. Reading a word's bytes gives the number of the word, and the
order of byte strings of one length by their first difference is the order of their
numbers with the most significant byte first.
-/
namespace Padwork
open Fips202

/-- The number with the given bytes, least significant first. -/
def ofLittleEndian (bytes : Bytes) : Nat := Nat.ofDigits 256 (bytes.map UInt8.toNat)

/-- The number with the given bytes, most significant first. -/
def ofBigEndian (bytes : Bytes) : Nat := ofLittleEndian bytes.reverse

def le64 (n : Nat) : Bytes := (List.range 8).map fun i => .ofNat (n / 256 ^ i)

@[simp] theorem ofLittleEndian_nil : ofLittleEndian [] = 0 := rfl

theorem ofLittleEndian_cons (b : UInt8) (bytes : Bytes) :
    ofLittleEndian (b :: bytes) = b.toNat + 256 * ofLittleEndian bytes := by
  simp [ofLittleEndian, Nat.ofDigits_cons]

theorem ofLittleEndian_lt (bytes : Bytes) : ofLittleEndian bytes < 256 ^ bytes.length := by
  induction bytes with
  | nil => simp
  | cons b bytes ih =>
    have hb := b.toNat_lt
    rw [ofLittleEndian_cons, List.length_cons, Nat.pow_succ]
    omega

theorem testBit_ofLittleEndian (bytes : Bytes) (i : Nat) :
    (ofLittleEndian bytes).testBit i = (bitsOfBytes bytes).getD i false := by
  induction bytes generalizing i with
  | nil => simp
  | cons b bytes ih =>
    have hsum : b.toNat + 256 * ofLittleEndian bytes =
        2 ^ 8 * ofLittleEndian bytes + b.toNat := Nat.add_comm _ _
    rw [ofLittleEndian_cons, hsum, Nat.testBit_two_pow_mul_add _ b.toNat_lt, bitsOfBytes_cons]
    split
    · next hi => rw [List.getD_append _ _ _ _ (by simpa using hi), getD_bitsOfByte]
    · next hi =>
      rw [List.getD_append_right _ _ _ _ (by simpa using hi), length_bitsOfByte, ih]

theorem toNat_wordOfBytes (b0 b1 b2 b3 b4 b5 b6 b7 : UInt8) :
    (wordOfBytes b0 b1 b2 b3 b4 b5 b6 b7).toNat =
      ofLittleEndian [b0, b1, b2, b3, b4, b5, b6, b7] := by
  apply Nat.eq_of_testBit_eq
  intro i
  rw [testBit_ofLittleEndian]
  by_cases hi : i < 64
  · exact bit_wordOfBytes b0 b1 b2 b3 b4 b5 b6 b7 ⟨i, hi⟩
  · rw [testBit_word _ (Nat.le_of_not_lt hi), List.getD_eq_default _ _ (by simpa using hi)]

theorem toList_littleEndian (w : UInt64) : (littleEndian w).toList = le64 w.toNat := by
  apply List.ext_getElem
  · simp [le64]
  · intro i hi hi'
    rw [← List.getD_eq_getElem _ 0 hi, getD_littleEndian _ _ (by simpa using hi), Nat.pow_mul]
    simp only [le64, List.getElem_map, List.getElem_range, Nat.reducePow]

theorem ofBigEndian_cons (b : UInt8) (bytes : Bytes) :
    ofBigEndian (b :: bytes) = ofBigEndian bytes + 256 ^ bytes.length * b.toNat := by
  simp [ofBigEndian, ofLittleEndian, Nat.ofDigits_append]

theorem ofBigEndian_lt (bytes : Bytes) : ofBigEndian bytes < 256 ^ bytes.length := by
  have h := ofLittleEndian_lt bytes.reverse
  rwa [List.length_reverse] at h

/-- Among strings of one length the first difference decides, as it does for numbers. -/
theorem lt_iff_ofBigEndian_lt {s t : Bytes} (h : s.length = t.length) :
    s < t ↔ ofBigEndian s < ofBigEndian t := by
  induction s generalizing t with
  | nil =>
    rw [List.length_nil, eq_comm, List.length_eq_zero_iff] at h
    subst h
    simp [ofBigEndian]
  | cons a s ih =>
    cases t with
    | nil => simp at h
    | cons b t =>
      rw [List.length_cons, List.length_cons, Nat.add_right_cancel_iff] at h
      have hs := ofBigEndian_lt s
      have ht := ofBigEndian_lt t
      rw [List.cons_lt_cons_iff, ih h, ofBigEndian_cons, ofBigEndian_cons, h,
        UInt8.lt_iff_toNat_lt, ← UInt8.toNat_inj]
      rw [h] at hs
      generalize 256 ^ t.length = m at hs ht ⊢
      -- a step of the first byte outweighs all bytes behind it
      rcases Nat.lt_trichotomy a.toNat b.toNat with hab | hab | hab
      · have hm := Nat.mul_le_mul_left m (Nat.succ_le_of_lt hab)
        rw [Nat.mul_succ] at hm
        omega
      · rw [hab]
        omega
      · have hm := Nat.mul_le_mul_left m (Nat.succ_le_of_lt hab)
        rw [Nat.mul_succ] at hm
        omega

theorem Bytes32.le_iff_ofBigEndian_le (s t : Bytes32) :
    s ≤ t ↔ ofBigEndian s.toList ≤ ofBigEndian t.toList := by
  rw [← Vector.not_lt, ← Nat.not_lt, ← lt_iff_ofBigEndian_lt (by simp)]
  rfl

end Padwork
