import Mathlib.Algebra.Group.Nat.Defs

/-!
# The permutation of FIPS 202

A state array has a bit for each (x, y, z). Each step mapping says from which bits
of the old array a bit of the new one is made. The offsets of rho come from its
walk over the lanes and the constants of iota from a shift register, so that
nothing here is a table.
-/
namespace Padwork.Fips202

abbrev StateArray := Fin 5 → Fin 5 → Fin 64 → Bool

/-- The lanes that rho rotates, in its order. -/
def walk : Nat → Fin 5 × Fin 5
  | 0 => (1, 0)
  | t + 1 => (fun place => (place.2, 2 * place.1 + 3 * place.2)) (walk t)

/-- One step of the shift register behind the round constants. The bit that leaves it at the end
comes back at four places. -/
def shift (r : Vector Bool 8) : Vector Bool 8 :=
  #v[r[7], r[0], r[1], r[2], r[3] ^^ r[7], r[4] ^^ r[7], r[5] ^^ r[7], r[6]]

def register : Nat → Vector Bool 8
  | 0 => #v[true, false, false, false, false, false, false, false]
  | t + 1 => shift (register t)

def rc (t : Nat) : Bool := (register (t % 255))[0]

/-- The constant of round `i`, whose bits 0, 1, 3, 7, 15, 31 and 63 are drawn from `rc`. -/
def roundConstant (i : Nat) (z : Fin 64) : Bool :=
  (List.range 7).any fun j => z.val = 2 ^ j - 1 && rc (j + 7 * i)

namespace StateArray

def parity (a : StateArray) (x : Fin 5) (z : Fin 64) : Bool :=
  a x 0 z ^^ a x 1 z ^^ a x 2 z ^^ a x 3 z ^^ a x 4 z

def theta (a : StateArray) : StateArray :=
  fun x y z => a x y z ^^ (a.parity (x - 1) z ^^ a.parity (x + 1) (z - 1))

/-- Rotates the lane at the `t`-th place of the walk. -/
def rhoStep (a out : StateArray) (t : Nat) : StateArray := fun x y z =>
  if (x, y) = walk t then a x y (z - Fin.ofNat 64 ((t + 1) * (t + 2) / 2)) else out x y z

/-- Rotates the lanes along the walk. The lane at (0, 0), which is not on it, stays. -/
def rho (a : StateArray) : StateArray := (List.range 24).foldl a.rhoStep a

def pi (a : StateArray) : StateArray := fun x y z => a (x + 3 * y) x z

def chi (a : StateArray) : StateArray :=
  fun x y z => a x y z ^^ (!a (x + 1) y z && a (x + 2) y z)

def iota (i : Nat) (a : StateArray) : StateArray :=
  fun x y z => if x = 0 ∧ y = 0 then a x y z ^^ roundConstant i z else a x y z

def round (a : StateArray) (i : Nat) : StateArray := a.theta.rho.pi.chi.iota i

/-- Keccak-f[1600]: rounds 0 to 23. -/
def keccakF (a : StateArray) : StateArray := (List.range 24).foldl round a

end StateArray

end Padwork.Fips202
