/-!
# The sponge state

The state of Keccak-f[1600] is a 5 by 5 array of 64-bit lanes. Lanes that share
their y coordinate form a plane. The standard numbers the lane at (x, y) as
x + 5y; `toLanes` and `ofLanes` convert to and from that order.
-/
namespace Padwork.Keccak

/-- The five lanes of one y coordinate, by their x coordinate. -/
structure Plane where
  x0 : UInt64
  x1 : UInt64
  x2 : UInt64
  x3 : UInt64
  x4 : UInt64
deriving DecidableEq

namespace Plane

def zero : Plane := ⟨0, 0, 0, 0, 0⟩

@[inline] def xor (p q : Plane) : Plane :=
  ⟨p.x0 ^^^ q.x0, p.x1 ^^^ q.x1, p.x2 ^^^ q.x2, p.x3 ^^^ q.x3, p.x4 ^^^ q.x4⟩

def lane (p : Plane) : Fin 5 → UInt64
  | 0 => p.x0
  | 1 => p.x1
  | 2 => p.x2
  | 3 => p.x3
  | 4 => p.x4

@[inline] def setLane (p : Plane) (x : Fin 5) (w : UInt64) : Plane :=
  match x with
  | 0 => { p with x0 := w }
  | 1 => { p with x1 := w }
  | 2 => { p with x2 := w }
  | 3 => { p with x3 := w }
  | 4 => { p with x4 := w }

@[ext] theorem ext_lane {p q : Plane} (h : ∀ x, p.lane x = q.lane x) : p = q := by
  cases p
  cases q
  exact Plane.mk.injEq .. ▸ ⟨h 0, h 1, h 2, h 3, h 4⟩

@[simp] theorem lane_zero (x : Fin 5) : zero.lane x = 0 := by
  match x with
  | 0 | 1 | 2 | 3 | 4 => rfl

theorem lane_setLane (p : Plane) (x x' : Fin 5) (w : UInt64) :
    (p.setLane x w).lane x' = if x' = x then w else p.lane x' := by
  match x with
  | 0 | 1 | 2 | 3 | 4 => match x' with
    | 0 | 1 | 2 | 3 | 4 => rfl

@[simp] theorem lane_xor (p q : Plane) (x : Fin 5) : (p.xor q).lane x = p.lane x ^^^ q.lane x := by
  match x with
  | 0 | 1 | 2 | 3 | 4 => rfl

end Plane

/-- The five planes of the state, by their y coordinate. -/
structure State where
  y0 : Plane
  y1 : Plane
  y2 : Plane
  y3 : Plane
  y4 : Plane
deriving DecidableEq

namespace State

def zero : State := ⟨.zero, .zero, .zero, .zero, .zero⟩

@[inline] def xor (s t : State) : State :=
  ⟨s.y0.xor t.y0, s.y1.xor t.y1, s.y2.xor t.y2, s.y3.xor t.y3, s.y4.xor t.y4⟩

def plane (s : State) : Fin 5 → Plane
  | 0 => s.y0
  | 1 => s.y1
  | 2 => s.y2
  | 3 => s.y3
  | 4 => s.y4

/-- The lane at (x, y). -/
def lane (s : State) (x y : Fin 5) : UInt64 := (s.plane y).lane x

@[inline] def setLane (s : State) (x y : Fin 5) (w : UInt64) : State :=
  match y with
  | 0 => { s with y0 := s.y0.setLane x w }
  | 1 => { s with y1 := s.y1.setLane x w }
  | 2 => { s with y2 := s.y2.setLane x w }
  | 3 => { s with y3 := s.y3.setLane x w }
  | 4 => { s with y4 := s.y4.setLane x w }

@[ext] theorem ext_lane {s t : State} (h : ∀ x y, s.lane x y = t.lane x y) : s = t := by
  cases s
  cases t
  exact State.mk.injEq .. ▸ ⟨Plane.ext_lane (h · 0), Plane.ext_lane (h · 1), Plane.ext_lane (h · 2),
    Plane.ext_lane (h · 3), Plane.ext_lane (h · 4)⟩

@[simp] theorem lane_zero (x y : Fin 5) : zero.lane x y = 0 := by
  match y with
  | 0 | 1 | 2 | 3 | 4 => exact Plane.lane_zero x

theorem plane_setLane (s : State) (x y y' : Fin 5) (w : UInt64) :
    (s.setLane x y w).plane y' = if y' = y then (s.plane y').setLane x w else s.plane y' := by
  match y with
  | 0 | 1 | 2 | 3 | 4 => match y' with
    | 0 | 1 | 2 | 3 | 4 => rfl

theorem lane_setLane (s : State) (x y x' y' : Fin 5) (w : UInt64) :
    (s.setLane x y w).lane x' y' = if x' = x ∧ y' = y then w else s.lane x' y' := by
  rw [lane, plane_setLane]
  by_cases hy : y' = y
  · rw [if_pos hy, Plane.lane_setLane, hy, lane]
    simp only [and_true]
  · rw [if_neg hy, if_neg fun h => hy h.2, lane]

@[simp] theorem lane_xor (s t : State) (x y : Fin 5) :
    (s.xor t).lane x y = s.lane x y ^^^ t.lane x y := by
  match y with
  | 0 | 1 | 2 | 3 | 4 => exact Plane.lane_xor _ _ x

/-- The lanes in the standard's order: the lane at (x, y) has number x + 5y. -/
def toLanes (s : State) : Vector UInt64 25 :=
  #v[s.y0.x0, s.y0.x1, s.y0.x2, s.y0.x3, s.y0.x4,
    s.y1.x0, s.y1.x1, s.y1.x2, s.y1.x3, s.y1.x4,
    s.y2.x0, s.y2.x1, s.y2.x2, s.y2.x3, s.y2.x4,
    s.y3.x0, s.y3.x1, s.y3.x2, s.y3.x3, s.y3.x4,
    s.y4.x0, s.y4.x1, s.y4.x2, s.y4.x3, s.y4.x4]

def ofLanes (v : Vector UInt64 25) : State :=
  ⟨⟨v[0], v[1], v[2], v[3], v[4]⟩, ⟨v[5], v[6], v[7], v[8], v[9]⟩,
   ⟨v[10], v[11], v[12], v[13], v[14]⟩, ⟨v[15], v[16], v[17], v[18], v[19]⟩,
   ⟨v[20], v[21], v[22], v[23], v[24]⟩⟩

@[simp] theorem ofLanes_toLanes (s : State) : ofLanes s.toLanes = s := rfl

theorem lane_ofLanes (v : Vector UInt64 25) (x y : Fin 5) :
    (ofLanes v).lane x y = v[x.val + 5 * y.val] := by
  match y with
  | 0 | 1 | 2 | 3 | 4 => match x with
    | 0 | 1 | 2 | 3 | 4 => rfl

end State

end Padwork.Keccak
