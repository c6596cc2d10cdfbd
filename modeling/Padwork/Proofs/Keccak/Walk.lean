import Padwork.Keccak.Permutation

/-!
# Rho and pi in place

The walk over the lanes overwrites what it has just taken up. As it comes to no lane twice,
each lane is still as it was when it is taken up, and what is put down stays. It ends
with the lane that was taken up first, so it visits every lane but lane 0.
-/
namespace Padwork.Keccak

structure Move where
  source : Place
  target : Place
  offset : UInt64
deriving DecidableEq

/-- The moves that a walk comes to when it takes up a lane and visits some places. -/
def moves (source : Place) : List (Place × UInt64) → List Move
  | [] => []
  | (target, offset) :: way => ⟨source, target, offset⟩ :: moves target way

namespace State

variable {s t : State} {way : List (Place × UInt64)} {x y : Fin 5}

theorem lane_carry_of_notMem (h : (x, y) ∉ way.map Prod.fst) (carried : UInt64) (s : State) :
    (s.carry way carried).lane x y = s.lane x y := by
  induction way generalizing carried s with
  | nil => rfl
  | cons stop way ih =>
    obtain ⟨⟨x', y'⟩, offset⟩ := stop
    rw [List.map_cons, List.mem_cons, not_or, Prod.mk.injEq] at h
    rw [carry, ih h.2, lane_setLane, if_neg h.1]

/-- A walk that comes to no place twice makes its moves as if all were made at once. While it goes
on, the lanes it still has to visit are as they were in the beginning. -/
theorem lane_carry_of_mem (start : Place) {move : Move} (hnodup : (way.map Prod.fst).Nodup)
    (hsame : ∀ place ∈ way.map Prod.fst, t.lane place.1 place.2 = s.lane place.1 place.2)
    (hmove : move ∈ moves start way) :
    (t.carry way (s.lane start.1 start.2)).lane move.target.1 move.target.2 =
      rotateLeft (s.lane move.source.1 move.source.2) move.offset := by
  induction way generalizing start t with
  | nil => cases hmove
  | cons stop way ih =>
    obtain ⟨⟨x, y⟩, offset⟩ := stop
    rw [List.map_cons, List.nodup_cons] at hnodup
    have htaken : t.lane x y = s.lane x y := hsame (x, y) List.mem_cons_self
    rw [carry, htaken]
    rcases List.mem_cons.mp hmove with rfl | hmove
    · rw [lane_carry_of_notMem hnodup.1, lane_setLane, if_pos ⟨rfl, rfl⟩]
    · refine ih (x, y) hnodup.2 (fun place hplace => ?_) hmove
      have hne : ¬(place.1 = x ∧ place.2 = y) := by
        rintro ⟨rfl, rfl⟩
        exact hnodup.1 hplace
      rw [lane_setLane, if_neg hne]
      exact hsame place (List.mem_cons_of_mem _ hplace)

end State

end Padwork.Keccak
