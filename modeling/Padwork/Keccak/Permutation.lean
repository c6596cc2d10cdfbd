import Padwork.Keccak.State

/-!
# The permutation Keccak-f[1600]

A round applies theta, rho, pi, chi and iota in this order, and the permutation
runs one round for each round constant. Theta and chi work on whole planes. Rho and
pi are one walk over the lanes, in which each lane takes the place of the next one
and is rotated on the way.
-/
namespace Padwork.Keccak

/-- Rotates a word to the left by `n` bits, for `n` below 64. -/
@[inline] def rotateLeft (w n : UInt64) : UInt64 := (w <<< n) ||| (w >>> (64 - n))

namespace Plane

/-- What theta adds to every lane of a column, from the column parities. -/
@[inline] def thetaEffect (c : Plane) : Plane :=
  ⟨c.x4 ^^^ rotateLeft c.x1 1, c.x0 ^^^ rotateLeft c.x2 1, c.x1 ^^^ rotateLeft c.x3 1,
   c.x2 ^^^ rotateLeft c.x4 1, c.x3 ^^^ rotateLeft c.x0 1⟩

@[inline] def chi (p : Plane) : Plane :=
  ⟨p.x0 ^^^ (~~~p.x1 &&& p.x2), p.x1 ^^^ (~~~p.x2 &&& p.x3), p.x2 ^^^ (~~~p.x3 &&& p.x4),
   p.x3 ^^^ (~~~p.x4 &&& p.x0), p.x4 ^^^ (~~~p.x0 &&& p.x1)⟩

theorem lane_thetaEffect (c : Plane) (x : Fin 5) :
    c.thetaEffect.lane x = c.lane (x + 4) ^^^ rotateLeft (c.lane (x + 1)) 1 := by
  match x with
  | 0 | 1 | 2 | 3 | 4 => rfl

theorem lane_chi (p : Plane) (x : Fin 5) :
    p.chi.lane x = p.lane x ^^^ (~~~p.lane (x + 1) &&& p.lane (x + 2)) := by
  match x with
  | 0 | 1 | 2 | 3 | 4 => rfl

end Plane

/-- The lanes that rho and pi visit, by number. -/
def piLanes : List (Fin 25) :=
  [10, 7, 11, 17, 18, 3, 5, 16, 8, 21, 24, 4, 15, 23, 19, 13, 12, 2, 20, 14, 22, 9, 6, 1]

/-- By how much a lane is rotated on its way to each of these. -/
def rhoOffsets : List UInt64 :=
  [1, 3, 6, 10, 15, 21, 28, 36, 45, 55, 2, 14, 27, 41, 56, 8, 25, 43, 62, 18, 39, 61, 20, 44]

abbrev Place := Fin 5 × Fin 5

def Place.ofNumber (number : Fin 25) : Place :=
  (⟨number.val % 5, by omega⟩, ⟨number.val / 5, by omega⟩)

def stops : List (Place × UInt64) := (piLanes.map Place.ofNumber).zip rhoOffsets

namespace State

@[inline] def mapPlanes (f : Plane → Plane) (s : State) : State :=
  ⟨f s.y0, f s.y1, f s.y2, f s.y3, f s.y4⟩

theorem plane_mapPlanes (f : Plane → Plane) (s : State) (y : Fin 5) :
    (s.mapPlanes f).plane y = f (s.plane y) := by
  match y with
  | 0 | 1 | 2 | 3 | 4 => rfl

/-- The parities of the columns. -/
@[inline] def parity (s : State) : Plane := (((s.y0.xor s.y1).xor s.y2).xor s.y3).xor s.y4

@[inline] def theta (s : State) : State :=
  let effect := s.parity.thetaEffect
  s.mapPlanes (·.xor effect)

/-- At each stop the carried lane is put down, rotated, and the one that was there is taken up. -/
def carry : List (Place × UInt64) → UInt64 → State → State
  | [], _, s => s
  | ((x, y), offset) :: stops, carried, s =>
    let next := s.lane x y
    carry stops next (s.setLane x y (rotateLeft carried offset))

/-- Rho and pi in place, from lane 1 on. Lane 0 stays. -/
def rhoPi (s : State) : State := carry stops s.y0.x1 s

@[inline] def chi (s : State) : State := s.mapPlanes Plane.chi

@[inline] def iota (constant : UInt64) (s : State) : State :=
  { s with y0 := { s.y0 with x0 := s.y0.x0 ^^^ constant } }

theorem lane_theta (s : State) (x y : Fin 5) :
    s.theta.lane x y = s.lane x y ^^^ s.parity.thetaEffect.lane x := by
  simp only [theta, lane, plane_mapPlanes, Plane.lane_xor]

theorem lane_chi (s : State) (x y : Fin 5) :
    s.chi.lane x y = s.lane x y ^^^ (~~~s.lane (x + 1) y &&& s.lane (x + 2) y) := by
  simp only [chi, lane, plane_mapPlanes, Plane.lane_chi]

theorem lane_iota (constant : UInt64) (s : State) (x y : Fin 5) :
    (s.iota constant).lane x y =
      if x = 0 ∧ y = 0 then s.lane x y ^^^ constant else s.lane x y := by
  match y with
  | 0 | 1 | 2 | 3 | 4 => match x with
    | 0 | 1 | 2 | 3 | 4 => rfl

def round (s : State) (constant : UInt64) : State := s.theta.rhoPi.chi.iota constant

end State

def roundConstants : List UInt64 :=
  [0x0000000000000001, 0x0000000000008082, 0x800000000000808a, 0x8000000080008000,
   0x000000000000808b, 0x0000000080000001, 0x8000000080008081, 0x8000000000008009,
   0x000000000000008a, 0x0000000000000088, 0x0000000080008009, 0x000000008000000a,
   0x000000008000808b, 0x800000000000008b, 0x8000000000008089, 0x8000000000008003,
   0x8000000000008002, 0x8000000000000080, 0x000000000000800a, 0x800000008000000a,
   0x8000000080008081, 0x8000000000008080, 0x0000000080000001, 0x8000000080008008]

/-- Keccak-f[1600]. -/
def permute (s : State) : State := roundConstants.foldl State.round s

end Padwork.Keccak
