import Padwork.Engine.Basic

/-!
# What a scan finds

A scan tries the nonces of a range from the lowest on. It stops at the first whose
digest meets the target, and finds nothing only when none does. Ranges are given by
natural numbers here, so that ranges that meet can be put together.
-/
namespace Padwork.Engine

/-- No nonce from `start` on and below `stop` meets the target. -/
def Barren (e : Engine) (header : Bytes) (bound : Bytes32) (start stop : Nat) : Prop :=
  ∀ nonce : UInt64, start ≤ nonce.toNat → nonce.toNat < stop →
    meets (e.digest header nonce) bound = false

/-- The solution is the lowest nonce from `start` on and below `stop` that meets the target. -/
structure Lowest (e : Engine) (header : Bytes) (bound : Bytes32) (start stop : Nat)
    (solution : Solution) : Prop where
  start_le : start ≤ solution.nonce.toNat
  lt_stop : solution.nonce.toNat < stop
  digest_eq : solution.digest = e.digest header solution.nonce
  meets_bound : meets solution.digest bound = true
  barren : e.Barren header bound start solution.nonce.toNat

variable {e : Engine} {header : Bytes} {bound : Bytes32} {start middle stop : Nat}
  {solution : Solution}

theorem Barren.of_le (h : stop ≤ start) : e.Barren header bound start stop := by
  intro nonce hstart hstop
  omega

theorem Barren.append (hfront : e.Barren header bound start middle)
    (hback : e.Barren header bound middle stop) : e.Barren header bound start stop := by
  intro nonce hstart hstop
  by_cases h : nonce.toNat < middle
  · exact hfront nonce hstart h
  · exact hback nonce (Nat.le_of_not_lt h) hstop

theorem Barren.take (h : e.Barren header bound start stop) (hle : middle ≤ stop) :
    e.Barren header bound start middle := by
  intro nonce hstart hmiddle
  exact h nonce hstart (Nat.lt_of_lt_of_le hmiddle hle)

theorem barren_singleton {nonce : UInt64} (h : meets (e.digest header nonce) bound = false) :
    e.Barren header bound nonce.toNat (nonce.toNat + 1) := by
  intro other hstart hstop
  have hother : other = nonce := UInt64.toNat_inj.mp (by omega)
  rw [hother]
  exact h

/-- A barren stretch may be put before the range of the lowest solution. -/
theorem Lowest.prepend (hfront : e.Barren header bound start middle) (hle : start ≤ middle)
    (h : e.Lowest header bound middle stop solution) :
    e.Lowest header bound start stop solution where
  start_le := Nat.le_trans hle h.start_le
  lt_stop := h.lt_stop
  digest_eq := h.digest_eq
  meets_bound := h.meets_bound
  barren := hfront.append h.barren

theorem Lowest.extend (h : e.Lowest header bound start middle solution) (hle : middle ≤ stop) :
    e.Lowest header bound start stop solution :=
  { h with lt_stop := Nat.lt_of_lt_of_le h.lt_stop hle }

theorem Lowest.not_barren (h : e.Lowest header bound start stop solution) :
    ¬e.Barren header bound start stop := by
  intro hbarren
  have hmeets := h.meets_bound
  rw [h.digest_eq, hbarren solution.nonce h.start_le h.lt_stop] at hmeets
  cases hmeets

theorem Lowest.unique {other : Solution} (h : e.Lowest header bound start stop solution)
    (hother : e.Lowest header bound start stop other) : solution = other := by
  have hnonce : solution.nonce = other.nonce := by
    rcases Nat.lt_trichotomy solution.nonce.toNat other.nonce.toNat with hlt | heq | hgt
    · exact absurd (hother.barren.take hlt) (Lowest.not_barren { h with lt_stop := by omega })
    · exact UInt64.toNat_inj.mp heq
    · exact absurd (h.barren.take hgt) (Lowest.not_barren { hother with lt_stop := by omega })
  have hdigest : solution.digest = other.digest := by
    rw [h.digest_eq, hother.digest_eq, hnonce]
  cases solution
  cases other
  rw [Solution.mk.injEq]
  exact ⟨hnonce, hdigest⟩

theorem toNat_succ {next stop : UInt64} (h : next < stop) :
    (next + 1).toNat = next.toNat + 1 := by
  have hstop := stop.toNat_lt
  rw [UInt64.lt_iff_toNat_lt] at h
  rw [UInt64.toNat_add, UInt64.toNat_one]
  omega

/-- One scan answers for its range. -/
theorem scan_spec (e : Engine) (header : Bytes) (bound : Bytes32) (next stop : UInt64) :
    match e.scan header bound next stop with
    | some solution => e.Lowest header bound next.toNat stop.toNat solution
    | none => e.Barren header bound next.toNat stop.toNat := by
  fun_induction e.scan header bound next stop with
  | case1 next hlt digest hmeets =>
    exact ⟨Nat.le_refl _, UInt64.lt_iff_toNat_lt.mp hlt, rfl, hmeets, .of_le (Nat.le_refl _)⟩
  | case2 next hlt digest hmeets ih =>
    have hfirst : e.Barren header bound next.toNat (next + 1).toNat := by
      rw [toNat_succ hlt]
      exact barren_singleton (Bool.eq_false_iff.mpr hmeets)
    have hle : next.toNat ≤ (next + 1).toNat := by
      rw [toNat_succ hlt]
      omega
    cases hscan : e.scan header bound (next + 1) stop with
    | none =>
      rw [hscan] at ih
      exact hfirst.append ih
    | some solution =>
      rw [hscan] at ih
      exact ih.prepend hfirst hle
  | case3 next hlt =>
    exact .of_le (UInt64.le_iff_toNat_le.mp (UInt64.not_lt.mp hlt))

theorem scan_eq_none_iff {next stop : UInt64} :
    e.scan header bound next stop = none ↔ e.Barren header bound next.toNat stop.toNat := by
  have hspec := e.scan_spec header bound next stop
  cases hscan : e.scan header bound next stop with
  | none =>
    rw [hscan] at hspec
    exact ⟨fun _ => hspec, fun _ => rfl⟩
  | some solution =>
    rw [hscan] at hspec
    exact ⟨nofun, fun hbarren => absurd hbarren hspec.not_barren⟩

theorem scan_eq_some_iff {next stop : UInt64} :
    e.scan header bound next stop = some solution ↔
      e.Lowest header bound next.toNat stop.toNat solution := by
  have hspec := e.scan_spec header bound next stop
  cases hscan : e.scan header bound next stop with
  | none =>
    rw [hscan] at hspec
    exact ⟨nofun, fun h => absurd hspec h.not_barren⟩
  | some first =>
    rw [hscan] at hspec
    constructor
    · rintro ⟨⟩
      exact hspec
    · intro h
      rw [hspec.unique h]

end Padwork.Engine
