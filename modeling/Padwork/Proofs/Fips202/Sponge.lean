import Mathlib.Data.List.GetD
import Mathlib.Data.Nat.Digits.Defs
import Mathlib.Logic.Function.Iterate
import Padwork.Bytes
import Padwork.Proofs.Fips202.StateArray

/-!
# SHA3-256 of FIPS 202

The sponge works on strings of bits: a padded message is cut into blocks of the
rate, each block is added to the front of the state, and the state is permuted
after each. SHA3-256 is the sponge of capacity 512 with the two bits 01 behind the
message. A byte string is read with the lowest bit of each byte first.
-/
namespace Padwork.Fips202

abbrev BitString := List Bool

namespace StateArray

/-- The bit at (x, y, z) has number 64(5y + x) + z. -/
def ofString (s : BitString) : StateArray :=
  fun x y z => s.getD (64 * (5 * y.val + x.val) + z.val) false

def string (a : StateArray) : BitString := List.ofFn fun i : Fin 1600 =>
  a ⟨i.val / 64 % 5, by omega⟩ ⟨i.val / 320, by omega⟩ ⟨i.val % 64, by omega⟩

@[simp] theorem length_string (a : StateArray) : a.string.length = 1600 := by
  rw [string, List.length_ofFn]

theorem getElem_string (a : StateArray) (i : Nat) (hi : i < a.string.length) :
    a.string[i] = a ⟨i / 64 % 5, by omega⟩ ⟨i / 320, by rw [length_string] at hi; omega⟩
      ⟨i % 64, by omega⟩ := by
  simp only [string, List.getElem_ofFn]

@[simp] theorem ofString_string (a : StateArray) : ofString a.string = a := by
  ext x y z
  have hx := x.isLt
  have hy := y.isLt
  have hz := z.isLt
  have hi : 64 * (5 * y.val + x.val) + z.val < a.string.length := by
    rw [length_string]
    omega
  have hxi : (64 * (5 * y.val + x.val) + z.val) / 64 % 5 = x.val := by omega
  have hyi : (64 * (5 * y.val + x.val) + z.val) / 320 = y.val := by omega
  have hzi : (64 * (5 * y.val + x.val) + z.val) % 64 = z.val := by omega
  rw [ofString, List.getD_eq_getElem _ _ hi, getElem_string]
  simp only [hxi, hyi, hzi]

end StateArray

def keccakF (s : BitString) : BitString := (StateArray.ofString s).keccakF.string

def xorBits (s t : BitString) : BitString := List.zipWith (· ^^ ·) s t

/-- The padding pad10*1 of `m` bits up to a multiple of `x`. -/
def pad (x m : Nat) : BitString :=
  true :: List.replicate ((-(m : Int) - 2) % x).toNat false ++ [true]

/-- Absorbs the first `n` blocks of a string into a state. -/
def absorb (f : BitString → BitString) (rate capacity : Nat) :
    Nat → BitString → BitString → BitString
  | 0, _, s => s
  | n + 1, p, s =>
    absorb f rate capacity n (p.drop rate)
      (f (xorBits s (p.take rate ++ List.replicate capacity false)))

/-- The first `d` bits of the states that follow, of each so many as the rate. -/
def squeeze (f : BitString → BitString) (rate d : Nat) (s : BitString) : BitString :=
  ((List.range (d / rate + 1)).flatMap fun i => (f^[i] s).take rate).take d

theorem squeeze_eq_take (f : BitString → BitString) (rate d : Nat) (s : BitString) (h : d < rate) :
    squeeze f rate d s = s.take d := by
  rw [squeeze, Nat.div_eq_of_lt h]
  simp [List.take_take, Nat.min_eq_left (Nat.le_of_lt h)]

def sponge (f : BitString → BitString) (pad : Nat → Nat → BitString) (rate capacity : Nat)
    (message : BitString) (d : Nat) : BitString :=
  let p := message ++ pad rate message.length
  squeeze f rate d
    (absorb f rate capacity (p.length / rate) p (List.replicate (rate + capacity) false))

/-- Keccak[c]. -/
def keccak (capacity : Nat) (message : BitString) (d : Nat) : BitString :=
  sponge keccakF pad (1600 - capacity) capacity message d

def sha3 (message : BitString) : BitString := keccak 512 (message ++ [false, true]) 256

/-- The bits of a byte, the lowest first. -/
def bitsOfByte (b : UInt8) : BitString := (List.range 8).map b.toNat.testBit

def bitsOfBytes (bytes : Bytes) : BitString := bytes.flatMap bitsOfByte

def byteOfBits (s : BitString) : UInt8 := .ofNat (Nat.ofDigits 2 (s.map Bool.toNat))

def bytesOfBits : BitString → Bytes
  | b0 :: b1 :: b2 :: b3 :: b4 :: b5 :: b6 :: b7 :: rest =>
    byteOfBits [b0, b1, b2, b3, b4, b5, b6, b7] :: bytesOfBits rest
  | _ => []

def sha3OfBytes (message : Bytes) : Bytes := bytesOfBits (sha3 (bitsOfBytes message))

@[simp] theorem bitsOfBytes_nil : bitsOfBytes [] = [] := rfl

@[simp] theorem bitsOfBytes_cons (b : UInt8) (bytes : Bytes) :
    bitsOfBytes (b :: bytes) = bitsOfByte b ++ bitsOfBytes bytes := rfl

@[simp] theorem bitsOfBytes_append (s t : Bytes) :
    bitsOfBytes (s ++ t) = bitsOfBytes s ++ bitsOfBytes t := List.flatMap_append

@[simp] theorem length_bitsOfByte (b : UInt8) : (bitsOfByte b).length = 8 := by
  simp [bitsOfByte]

@[simp] theorem length_bitsOfBytes (bytes : Bytes) :
    (bitsOfBytes bytes).length = 8 * bytes.length := by
  induction bytes with
  | nil => rfl
  | cons b bytes ih =>
    rw [bitsOfBytes_cons, List.length_append, length_bitsOfByte, ih, List.length_cons]
    omega

theorem testBit_byte (b : UInt8) {i : Nat} (hi : 8 ≤ i) : b.toNat.testBit i = false :=
  Nat.testBit_lt_two_pow (Nat.lt_of_lt_of_le b.toNat_lt (Nat.pow_le_pow_right Nat.two_pos hi))

theorem getD_bitsOfByte (b : UInt8) (i : Nat) :
    (bitsOfByte b).getD i false = b.toNat.testBit i := by
  by_cases hi : i < 8
  · rw [List.getD_eq_getElem _ _ (by simpa using hi)]
    simp [bitsOfByte]
  · rw [List.getD_eq_default _ _ (by simpa using hi), testBit_byte b (Nat.le_of_not_lt hi)]

theorem getD_bitsOfBytes (bytes : Bytes) (i : Nat) :
    (bitsOfBytes bytes).getD i false = (bytes.getD (i / 8) 0).toNat.testBit (i % 8) := by
  induction bytes generalizing i with
  | nil => simp
  | cons b bytes ih =>
    by_cases hi : i < 8
    · rw [bitsOfBytes_cons, List.getD_append _ _ _ _ (by simpa using hi), getD_bitsOfByte,
        Nat.div_eq_of_lt hi, Nat.mod_eq_of_lt hi, List.getD_cons_zero]
    · have hq : i / 8 = (i - 8) / 8 + 1 := by omega
      have hr : i % 8 = (i - 8) % 8 := by omega
      rw [bitsOfBytes_cons, List.getD_append_right _ _ _ _ (by simpa using hi),
        length_bitsOfByte, ih, hq, hr, List.getD_cons_succ]

theorem bitsOfBytes_zeros (n : Nat) :
    bitsOfBytes (List.replicate n 0) = List.replicate (8 * n) false := by
  induction n with
  | zero => rfl
  | succ n ih =>
    have hbyte : bitsOfByte 0 = List.replicate 8 false := rfl
    rw [List.replicate_succ, bitsOfBytes_cons, ih, hbyte, List.replicate_append_replicate]
    congr 1
    omega

theorem byteOfBits_bitsOfByte (b : UInt8) : byteOfBits (bitsOfByte b) = b := by
  have h : ∀ n : Fin 256, byteOfBits (bitsOfByte (.ofNat n.val)) = .ofNat n.val := by
    decide +kernel
  simpa using h ⟨b.toNat, b.toNat_lt⟩

@[simp] theorem bytesOfBits_bitsOfBytes (bytes : Bytes) :
    bytesOfBits (bitsOfBytes bytes) = bytes := by
  induction bytes with
  | nil => rfl
  | cons b bytes ih =>
    change byteOfBits (bitsOfByte b) :: bytesOfBits (bitsOfBytes bytes) = b :: bytes
    rw [byteOfBits_bitsOfByte, ih]

end Padwork.Fips202
