import Padwork.Proofs.Bytes.Bits
import Padwork.Proofs.Keccak.Walk

/-!
# The permutation computes Keccak-f[1600]

The lane at (x, y) holds the bits (x, y, 0) to (x, y, 63) of the state array, the
lowest first. Theta, chi and iota on lanes are the step mappings of the standard on bits,
and the walk in place is rho followed by pi, so a round is a round and the permutation is
Keccak-f[1600].
-/
namespace Padwork.Keccak
open Fips202

/-- Rotation to the left moves each bit up, and the highest ones round to the lowest places. -/
theorem bit_rotateLeft (w n : UInt64) (hn : n.toNat < 64) (z : Fin 64) :
    bit (rotateLeft w n) z = bit w (z - Fin.ofNat 64 n.toNat) := by
  have hz := z.isLt
  have hsub : (64 - n).toNat = 64 - n.toNat := by
    rw [UInt64.toNat_sub_of_le _ _ (UInt64.le_iff_toNat_le.mpr (Nat.le_of_lt hn))]
    rfl
  have hplace : (z - Fin.ofNat 64 n.toNat).val = if n.toNat ≤ z.val then z.val - n.toNat
      else 64 - n.toNat + z.val := by
    rw [Fin.sub_def]
    simp only [Fin.ofNat, Nat.mod_eq_of_lt hn]
    split <;> omega
  simp only [bit, rotateLeft, hplace, UInt64.toNat_or, UInt64.toNat_shiftLeft,
    UInt64.toNat_shiftRight, hsub, Nat.testBit_or, Nat.testBit_mod_two_pow, Nat.testBit_shiftLeft,
    Nat.testBit_shiftRight, Nat.mod_eq_of_lt hn]
  by_cases hle : n.toNat ≤ z.val
  · by_cases h0 : n.toNat = 0
    · simp [h0]
    · rw [Nat.mod_eq_of_lt (by omega), testBit_word w (by omega : 64 ≤ 64 - n.toNat + z.val)]
      simp [hle]
  · rw [Nat.mod_eq_of_lt (by omega)]
    simp [hle]

namespace State

def bits (s : State) : StateArray := fun x y z => bit (s.lane x y) z

@[simp] theorem bits_zero : zero.bits = fun _ _ _ => false := by
  ext x y z
  simp [bits]

theorem bits_xor (s t : State) : (s.xor t).bits = fun x y z => s.bits x y z ^^ t.bits x y z := by
  ext x y z
  simp [bits]

theorem bit_parity (s : State) (x : Fin 5) (z : Fin 64) :
    bit (s.parity.lane x) z = s.bits.parity x z := by
  simp only [parity, Plane.lane_xor, bit_xor]
  rfl

theorem bits_theta (s : State) : s.theta.bits = s.bits.theta := by
  ext x y z
  have hleft : x + 4 = x - 1 := by
    revert x
    decide
  have hone : Fin.ofNat 64 (1 : UInt64).toNat = 1 := rfl
  simp only [bits, StateArray.theta, lane_theta, Plane.lane_thetaEffect, bit_xor, bit_parity,
    bit_rotateLeft _ 1 (by decide), hleft, hone]

/-- The offset at a lane once the first places of the walk have been visited. -/
def walkOffset : Nat → Fin 5 → Fin 5 → Nat
  | 0, _, _ => 0
  | t + 1, x, y => if (x, y) = walk t then (t + 1) * (t + 2) / 2 else walkOffset t x y

theorem foldl_rhoStep (a : StateArray) (n : Nat) (x y : Fin 5) (z : Fin 64) :
    (List.range n).foldl a.rhoStep a x y z = a x y (z - Fin.ofNat 64 (walkOffset n x y)) := by
  induction n with
  | zero =>
    have h : z - Fin.ofNat 64 0 = z := by
      revert z
      decide
    exact congrArg (a x y) h.symm
  | succ n ih =>
    rw [List.range_succ, List.foldl_append, List.foldl_cons, List.foldl_nil, StateArray.rhoStep,
      walkOffset]
    split
    · rfl
    · exact ih

theorem nodup_stops : (stops.map Prod.fst).Nodup := by decide

theorem zero_notMem_stops : (0, 0) ∉ stops.map Prod.fst := by decide

/-- Every lane but lane 0 is visited, and filled from where pi says by the offset of rho there. -/
theorem mem_moves_stops {x y : Fin 5} (h : ¬(x = 0 ∧ y = 0)) :
    ⟨(x + 3 * y, x), (x, y), .ofNat (walkOffset 24 (x + 3 * y) x % 64)⟩ ∈ moves (1, 0) stops := by
  revert x y
  decide

theorem rotateLeft_zero (w : UInt64) : rotateLeft w 0 = w := by
  have hright : w >>> 64 = w := by
    apply UInt64.toNat_inj.mp
    rw [UInt64.toNat_shiftRight]
    exact Nat.shiftRight_zero
  simp [rotateLeft, hright]

theorem lane_rhoPi (s : State) (x y : Fin 5) :
    s.rhoPi.lane x y =
      rotateLeft (s.lane (x + 3 * y) x) (.ofNat (walkOffset 24 (x + 3 * y) x % 64)) := by
  by_cases h : x = 0 ∧ y = 0
  · obtain ⟨rfl, rfl⟩ := h
    have hoffset : walkOffset 24 (0 + 3 * 0) 0 % 64 = 0 := by decide
    rw [rhoPi, lane_carry_of_notMem zero_notMem_stops, hoffset]
    exact (rotateLeft_zero _).symm
  · have hunvisited : ∀ place ∈ stops.map Prod.fst,
        s.lane place.1 place.2 = s.lane place.1 place.2 := fun _ _ => rfl
    exact lane_carry_of_mem (1, 0) nodup_stops hunvisited (mem_moves_stops h)

/-- The walk in place is rho followed by pi. -/
theorem bits_rhoPi (s : State) : s.rhoPi.bits = s.bits.rho.pi := by
  ext x y z
  have hlt : walkOffset 24 (x + 3 * y) x % 64 < 64 := Nat.mod_lt _ (by decide)
  have hoffset : (UInt64.ofNat (walkOffset 24 (x + 3 * y) x % 64)).toNat =
      walkOffset 24 (x + 3 * y) x % 64 :=
    UInt64.toNat_ofNat_of_lt (Nat.lt_trans hlt (by decide))
  have hmod : Fin.ofNat 64 (walkOffset 24 (x + 3 * y) x % 64) =
      Fin.ofNat 64 (walkOffset 24 (x + 3 * y) x) := Fin.ext (Nat.mod_mod _ _)
  rw [StateArray.pi, StateArray.rho, foldl_rhoStep, bits, lane_rhoPi,
    bit_rotateLeft _ _ (hoffset.symm ▸ hlt), hoffset, hmod]
  rfl

theorem bits_chi (s : State) : s.chi.bits = s.bits.chi := by
  ext x y z
  simp only [bits, StateArray.chi, lane_chi, bit_xor, bit_and, bit_not]

theorem bits_iota (s : State) (constant : UInt64) (i : Nat)
    (h : ∀ z, bit constant z = roundConstant i z) : (s.iota constant).bits = s.bits.iota i := by
  ext x y z
  rw [bits, lane_iota, StateArray.iota]
  split
  · rw [bit_xor, h]
    rfl
  · rfl

theorem bits_round (s : State) (constant : UInt64) (i : Nat)
    (h : ∀ z, bit constant z = roundConstant i z) : (s.round constant).bits = s.bits.round i := by
  rw [round, bits_iota _ _ _ h, bits_chi, bits_rhoPi, bits_theta]
  rfl

theorem bits_foldl_round (constants : List UInt64) (first : Nat)
    (h : ∀ (i : Nat) (hi : i < constants.length) (z : Fin 64),
      bit constants[i] z = roundConstant (first + i) z) (s : State) :
    (constants.foldl round s).bits =
      (List.range' first constants.length).foldl StateArray.round s.bits := by
  induction constants generalizing first s with
  | nil => rfl
  | cons constant constants ih =>
    rw [List.foldl_cons, List.length_cons, List.range'_succ, List.foldl_cons,
      ← bits_round s constant first (h 0 (Nat.zero_lt_succ _))]
    apply ih
    intro i hi z
    rw [Nat.add_assoc, Nat.add_comm 1 i]
    exact h (i + 1) (Nat.succ_lt_succ hi) z

end State

/-- The table of constants is drawn from the shift register. -/
theorem bit_roundConstants (i : Fin roundConstants.length) (z : Fin 64) :
    bit roundConstants[i] z = roundConstant i z := by
  revert i z
  decide

theorem bits_permute (s : State) : (permute s).bits = s.bits.keccakF := by
  have h (i : Nat) (hi : i < roundConstants.length) (z : Fin 64) :
      bit roundConstants[i] z = roundConstant (0 + i) z := by
    rw [Nat.zero_add]
    exact bit_roundConstants ⟨i, hi⟩ z
  rw [permute, State.bits_foldl_round roundConstants 0 h, StateArray.keccakF, List.range_eq_range']
  rfl

/-- The state array of 25 lanes in the standard's order. -/
def arrayOfLanes (v : Vector UInt64 25) : StateArray := fun x y z => bit v[5 * y.val + x.val] z

theorem bits_ofLanes (v : Vector UInt64 25) : (State.ofLanes v).bits = arrayOfLanes v := by
  ext x y z
  simp only [State.bits, State.lane_ofLanes, arrayOfLanes, Nat.add_comm]

/-- On 25 lanes in the standard's order the permutation is Keccak-f[1600]. -/
theorem arrayOfLanes_permute (v : Vector UInt64 25) :
    arrayOfLanes (permute (State.ofLanes v)).toLanes = (arrayOfLanes v).keccakF := by
  rw [← bits_ofLanes, State.ofLanes_toLanes, bits_permute, bits_ofLanes]

end Padwork.Keccak
