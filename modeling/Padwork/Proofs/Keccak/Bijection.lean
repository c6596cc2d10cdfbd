import Mathlib.Algebra.Group.Fin.Basic
import Mathlib.Data.Fintype.Card
import Mathlib.Data.Fintype.Pi
import Mathlib.Logic.Function.Iterate
import Padwork.Proofs.Keccak.Permutation

/-!
# The permutation merges no states

No step mapping takes two state arrays to one. Rho and pi only move bits, each to a
place of its own; the walk in place does the same, as it comes to every lane but lane 0
exactly once. Iota is undone by itself. Chi works on rows of five bits and is
the identity on them after 4 applications. Theta adds the parities of two columns to a
third; applied twice it does so from twice as far. As places count modulo 5 and 64,
it is the identity after 192 applications. So a round merges no states, and as there are
finitely many, the permutation leaves none out.
-/
namespace Padwork
namespace Fips202.StateArray

/-- A function that comes back to where it started merges nothing on the way. -/
theorem injective_of_iterate {α : Type} {f : α → α} {n : Nat} (h : f^[n + 1] = id) :
    Function.Injective f := by
  apply Function.Injective.of_comp (f := f^[n])
  rw [← Function.iterate_succ, h]
  exact Function.injective_id

/-! ## Theta -/

/-- Adds to each column the parities of two others, `dx` to its left and to its right. -/
def spread (dx : Fin 5) (dz : Fin 64) (a : StateArray) : StateArray :=
  fun x y z => a x y z ^^ (a.parity (x - dx) z ^^ a.parity (x + dx) (z - dz))

theorem theta_eq_spread : theta = spread 1 1 := rfl

/-- A column has five bits, so what is added to each of them is added to their parity. -/
theorem parity_spread (dx : Fin 5) (dz : Fin 64) (a : StateArray) (x : Fin 5) (z : Fin 64) :
    (a.spread dx dz).parity x z =
      (a.parity x z ^^ (a.parity (x - dx) z ^^ a.parity (x + dx) (z - dz))) := by
  generalize he : (a.parity (x - dx) z ^^ a.parity (x + dx) (z - dz)) = e
  simp only [parity] at he ⊢
  simp only [spread, parity, he]
  cases e <;> simp

/-- What comes from the column itself and from its neighbours comes twice, and goes. -/
theorem spread_spread (dx : Fin 5) (dz : Fin 64) (a : StateArray) :
    (a.spread dx dz).spread dx dz = a.spread (dx + dx) (dz + dz) := by
  ext x y z
  rw [spread, parity_spread, parity_spread, sub_sub, sub_add_cancel, add_sub_cancel_right,
    add_assoc, sub_sub, spread, spread]
  generalize a.parity (x - dx) z = left
  generalize a.parity (x + dx) (z - dz) = right
  generalize a.parity x (z - dz) = own
  cases left <;> cases right <;> cases own <;> simp

theorem iterate_spread (k : Nat) (dx : Fin 5) (dz : Fin 64) :
    (spread dx dz)^[2 ^ k] = spread (2 ^ k • dx) (2 ^ k • dz) := by
  induction k with
  | zero => simp only [pow_zero, Function.iterate_one, one_nsmul]
  | succ k ih =>
    rw [pow_succ, Nat.mul_two, Function.iterate_add, ih, add_nsmul, add_nsmul]
    exact funext (spread_spread _ _)

/-- Within a plane, four to the left is one to the right and three to the left is two to the
right. -/
theorem spread_three_spread_four (a : StateArray) : (a.spread 4 0).spread 3 0 = a := by
  ext x y z
  have hplaces : x - 3 = x + 2 ∧ x - 4 = x + 1 ∧ x + 2 - 4 = x + 3 ∧ x + 2 + 4 = x + 1 ∧
      x + 3 - 4 = x + 4 ∧ x + 3 + 4 = x + 2 := by
    revert x
    decide
  obtain ⟨h3, h4, h24, h24', h34, h34'⟩ := hplaces
  rw [spread, parity_spread, parity_spread, spread]
  simp only [sub_zero, h3, h4, h24, h24', h34, h34']
  generalize a.parity (x + 1) z = p1
  generalize a.parity (x + 2) z = p2
  generalize a.parity (x + 3) z = p3
  generalize a.parity (x + 4) z = p4
  revert p1 p2 p3 p4
  cases a x y z <;> decide

theorem iterate_theta : theta^[192] = id := by
  have hsum : 192 = 2 ^ 7 + 2 ^ 6 := rfl
  have h6 : (2 ^ 6 • 1 : Fin 5) = 4 ∧ (2 ^ 6 • 1 : Fin 64) = 0 := by decide
  have h7 : (2 ^ 7 • 1 : Fin 5) = 3 ∧ (2 ^ 7 • 1 : Fin 64) = 0 := by decide
  rw [theta_eq_spread, hsum, Function.iterate_add, iterate_spread, iterate_spread, h6.1, h6.2,
    h7.1, h7.2]
  exact funext spread_three_spread_four

theorem injective_theta : Function.Injective theta := injective_of_iterate iterate_theta

/-! ## Rho and pi -/

theorem rho_apply (a : StateArray) (x y : Fin 5) (z : Fin 64) :
    a.rho x y z = a x y (z - Fin.ofNat 64 (Keccak.State.walkOffset 24 x y)) :=
  Keccak.State.foldl_rhoStep a 24 x y z

theorem injective_rho : Function.Injective rho := by
  intro a b h
  ext x y z
  have hbit := congrFun (congrFun (congrFun h x) y)
    (z + Fin.ofNat 64 (Keccak.State.walkOffset 24 x y))
  rwa [rho_apply, rho_apply, add_sub_cancel_right] at hbit

theorem injective_pi : Function.Injective pi := by
  intro a b h
  ext x y z
  -- pi takes the lane at (x, y) to this place
  have hplace : y + 3 * (2 * (x - y)) = x := by
    revert x y
    decide
  have hbit := congrFun (congrFun (congrFun h y) (2 * (x - y))) z
  rwa [pi, pi, hplace] at hbit

/-! ## Chi and iota -/

/-- Chi on a row, of any length. -/
def chiRow {n : Nat} [NeZero n] (r : Fin n → Bool) (x : Fin n) : Bool :=
  r x ^^ (!r (x + 1) && r (x + 2))

set_option maxRecDepth 4000 in
theorem iterate_chiRow (r : Fin 5 → Bool) : chiRow^[4] r = r := by
  revert r
  decide

/-- Each row is worked on alone. -/
theorem iterate_chi_row (k : Nat) (a : StateArray) (y : Fin 5) (z : Fin 64) :
    (chi^[k] a · y z) = chiRow^[k] (a · y z) := by
  induction k generalizing a with
  | zero => rfl
  | succ k ih => exact ih a.chi

theorem iterate_chi : chi^[4] = id := by
  ext a x y z
  have hrow : (chi^[4] a · y z) = (a · y z) := by
    rw [iterate_chi_row, iterate_chiRow]
  exact congrFun hrow x

theorem injective_chi : Function.Injective chi := injective_of_iterate iterate_chi

theorem involutive_iota (i : Nat) : Function.Involutive (iota i) := by
  intro a
  ext x y z
  simp only [iota]
  split
  · rw [Bool.xor_assoc, Bool.xor_self, Bool.xor_false]
  · rfl

/-! ## Rounds -/

theorem injective_round (i : Nat) : Function.Injective (round · i) :=
  (involutive_iota i).injective.comp
    (injective_chi.comp (injective_pi.comp (injective_rho.comp injective_theta)))

theorem injective_foldl_round (rounds : List Nat) : Function.Injective (rounds.foldl round ·) := by
  induction rounds with
  | nil => exact Function.injective_id
  | cons i rounds ih => exact ih.comp (injective_round i)

theorem injective_keccakF : Function.Injective keccakF := injective_foldl_round (List.range 24)

end Fips202.StateArray

theorem eq_of_bit_eq {v w : UInt64} (h : ∀ z, bit v z = bit w z) : v = w := by
  apply UInt64.toNat_inj.mp
  apply Nat.eq_of_testBit_eq
  intro i
  by_cases hi : i < 64
  · exact h ⟨i, hi⟩
  · rw [testBit_word v (Nat.le_of_not_lt hi), testBit_word w (Nat.le_of_not_lt hi)]

namespace Keccak
namespace State

theorem injective_bits : Function.Injective bits := by
  intro s t h
  apply ext_lane
  intro x y
  apply eq_of_bit_eq
  intro z
  exact congrFun (congrFun (congrFun h x) y) z

instance : Finite State := .of_injective bits injective_bits

@[simp] theorem toLanes_ofLanes (v : Vector UInt64 25) : (ofLanes v).toLanes = v := by
  apply Vector.ext
  intro i hi
  interval_cases i <;> rfl

end State

theorem injective_permute : Function.Injective permute := by
  intro s t h
  apply State.injective_bits
  apply Fips202.StateArray.injective_keccakF
  rw [← bits_permute, ← bits_permute, h]

theorem bijective_permute : Function.Bijective permute :=
  Finite.injective_iff_bijective.mp injective_permute

/-- Each state of 25 lanes comes out of the permutation for exactly one state, and no number of
applications merges two states. -/
theorem permute_merges_nothing :
    (∀ t : Vector UInt64 25, ∃! s : Vector UInt64 25, (permute (State.ofLanes s)).toLanes = t) ∧
      ∀ (n : Nat) (s t : State), s ≠ t → permute^[n] s ≠ permute^[n] t := by
  constructor
  · intro t
    obtain ⟨s, hs⟩ := bijective_permute.surjective (State.ofLanes t)
    refine ⟨s.toLanes, ?_, ?_⟩
    · simp only [State.ofLanes_toLanes, hs, State.toLanes_ofLanes]
    · intro other hother
      have hpermute : permute (State.ofLanes other) = permute s := by
        rw [hs, ← hother, State.ofLanes_toLanes]
      rw [← injective_permute hpermute, State.toLanes_ofLanes]
  · intro n s t hne heq
    exact hne (injective_permute.iterate n heq)

end Keccak

end Padwork
