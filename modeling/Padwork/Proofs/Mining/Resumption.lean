import Padwork.Proofs.Mining.Construction
import Padwork.Proofs.Mining.Ending

/-!
# Stopped runs taken up again

The count of a stopped run says how far it has come, so the next run starts behind the
nonces that have been tried. However often a range is left and taken up again, its end
is that of one run over the whole range, and an exhausted range is counted once.
-/
namespace Padwork
namespace Mining

structure Leg where
  range : NonceRange
  run : Run

/-- What a leg leaves of its range, by the count reported last. -/
def Leg.rest (l : Leg) : NonceRange := ⟨l.range.start + l.run.hashes, l.range.stop⟩

theorem Leg.toNat_start_rest (l : Leg) (h : l.range.start.toNat + l.run.hashes.toNat < 2 ^ 64) :
    l.rest.start.toNat = l.range.start.toNat + l.run.hashes.toNat := by
  rw [rest, UInt64.toNat_add, Nat.mod_eq_of_lt h]

variable {e : Engine} {header : Bytes} {bound : Bytes32} {range rest : NonceRange}
  {hashes other : UInt64} {outcome outcome' : Outcome}

/-- What is said of the rest of a range holds of the range, if nothing is found before the rest. -/
theorem Outcome.Holds.prepend (hne : outcome ≠ .stopped) (hstop : rest.stop = range.stop)
    (hle : range.start.toNat ≤ rest.start.toNat)
    (hfront : e.Barren header bound range.start.toNat rest.start.toNat)
    (h : outcome.Holds e header bound rest hashes) : outcome.Holds e header bound range other := by
  cases outcome with
  | found solution =>
    rw [Holds, ← hstop]
    exact Engine.Lowest.prepend hfront hle h
  | exhausted =>
    rw [Holds, ← hstop]
    exact hfront.append h
  | stopped => exact absurd rfl hne

theorem Outcome.Holds.unique (hne : outcome ≠ .stopped) (hne' : outcome' ≠ .stopped)
    (h : outcome.Holds e header bound range hashes)
    (h' : outcome'.Holds e header bound range other) : outcome = outcome' := by
  cases outcome with
  | found solution =>
    cases outcome' with
    | found solution' => rw [Engine.Lowest.unique h h']
    | exhausted => exact absurd h' (Engine.Lowest.not_barren h)
    | stopped => exact absurd rfl hne'
  | exhausted =>
    cases outcome' with
    | found solution' => exact absurd h (Engine.Lowest.not_barren h')
    | exhausted => rfl
    | stopped => exact absurd rfl hne'
  | stopped => exact absurd rfl hne

end Mining

namespace Miner
open Mining

/-- Searches a range with a signal in each run, as given by the numbers, and takes up what a
stopped run leaves. When the numbers are used up there is no signal any more. -/
def legs (m : Miner) (header target : Bytes) (range : NonceRange) : List Nat → List Leg
  | [] => [⟨range, m.mine header target range none⟩]
  | number :: numbers =>
    let leg : Leg := ⟨range, m.mine header target range (some number)⟩
    match leg.run.result with
    | .ok .stopped => leg :: m.legs header target leg.rest numbers
    | _ => [leg]

variable {header target : Bytes} {bound : Bytes32} {range : NonceRange}

/-- What the legs of a range come to, with the end of the last one. -/
structure Completes (m : Miner) (header : Bytes) (bound : Bytes32) (range : NonceRange)
    (legs : List Leg) (outcome : Outcome) : Prop where
  ne_stopped : outcome ≠ .stopped
  last_eq : legs.getLast?.map (·.run.result) = some (.ok outcome)
  holds : outcome.Holds m.engine header bound range 0
  count_le : ∀ leg ∈ legs, leg.range.start.toNat + leg.run.hashes.toNat ≤ range.stop.toNat
  sum_eq : outcome = .exhausted →
    range.start.toNat + (legs.map (·.run.hashes.toNat)).sum = range.stop.toNat

theorem completes_singleton (m : Miner) (signal : Signal) {outcome : Outcome}
    (hok : m.engine.checkAttempt header target = .ok bound) (hrange : range.start ≤ range.stop)
    (hresult : (m.mine header target range signal).result = .ok outcome)
    (hne : outcome ≠ .stopped) :
    m.Completes header bound range [⟨range, m.mine header target range signal⟩] outcome := by
  obtain ⟨outcome', hresult', hholds⟩ := m.mine_spec range signal hok
  rw [hresult, Except.ok.injEq] at hresult'
  subst hresult'
  have hcounts := m.mine_counts range signal hok
  have hle := hcounts.le_stop hrange
  refine ⟨hne, ?_, ?_, ?_, ?_⟩
  · rw [List.getLast?_singleton, Option.map_some, hresult]
  · exact hholds.prepend hne rfl (Nat.le_refl _) (.of_le (Nat.le_refl _))
  · intro leg hleg
    rw [List.mem_singleton.mp hleg]
    exact hle
  · rintro rfl
    have hstop := hcounts.stop_le hresult
    simp only [List.map_cons, List.map_nil, List.sum_cons, List.sum_nil]
    omega

/-- A stopped run and the legs of what it leaves are the legs of its range. -/
theorem Completes.cons {m : Miner} {leg : Leg} {legs : List Leg} {outcome : Outcome}
    (h : m.Completes header bound leg.rest legs outcome)
    (hfront : m.engine.Barren header bound leg.range.start.toNat
      (leg.range.start.toNat + leg.run.hashes.toNat))
    (hle : leg.range.start.toNat + leg.run.hashes.toNat ≤ leg.range.stop.toNat) :
    m.Completes header bound leg.range (leg :: legs) outcome := by
  have hrest := leg.toNat_start_rest (Nat.lt_of_le_of_lt hle leg.range.stop.toNat_lt)
  have hstop : leg.rest.stop = leg.range.stop := rfl
  refine ⟨h.ne_stopped, ?_, ?_, ?_, ?_⟩
  · obtain ⟨last, hlast, hresult⟩ := Option.map_eq_some_iff.mp h.last_eq
    rw [List.getLast?_cons, hlast, Option.map_some]
    exact congrArg some hresult
  · rw [← hrest] at hfront
    exact h.holds.prepend h.ne_stopped hstop (by omega) hfront
  · intro other hother
    rcases List.mem_cons.mp hother with rfl | hother
    · exact hle
    · exact h.count_le other hother
  · intro hexhausted
    have hsum := h.sum_eq hexhausted
    simp only [List.map_cons, List.sum_cons]
    rw [hrest, hstop] at hsum
    omega

theorem exists_completes_legs (m : Miner) (hok : m.engine.checkAttempt header target = .ok bound)
    (hrange : range.start ≤ range.stop) (numbers : List Nat) :
    ∃ outcome, m.Completes header bound range (m.legs header target range numbers) outcome := by
  induction numbers generalizing range with
  | nil =>
    obtain ⟨outcome, hresult, -⟩ := m.mine_spec range none hok
    refine ⟨outcome, m.completes_singleton none hok hrange hresult ?_⟩
    rintro rfl
    exact m.result_mine_none_ne_stopped range hok hresult
  | cons number numbers ih =>
    obtain ⟨outcome, hresult, hholds⟩ := m.mine_spec range (some number) hok
    have hle := (m.mine_counts range (some number) hok).le_stop hrange
    rw [legs]
    cases outcome with
    | found solution =>
      simp only [hresult]
      exact ⟨_, m.completes_singleton (some number) hok hrange hresult nofun⟩
    | exhausted =>
      simp only [hresult]
      exact ⟨_, m.completes_singleton (some number) hok hrange hresult nofun⟩
    | stopped =>
      simp only [hresult]
      let leg : Leg := ⟨range, m.mine header target range (some number)⟩
      have hrest : leg.rest.start ≤ leg.rest.stop := by
        rw [UInt64.le_iff_toNat_le,
          leg.toNat_start_rest (Nat.lt_of_le_of_lt hle range.stop.toNat_lt)]
        exact hle
      obtain ⟨outcome, hcompletes⟩ := ih hrest
      exact ⟨outcome, hcompletes.cons hholds hle⟩

end Miner

open Mining

/-- However often the search of a range is stopped and taken up again, it ends as one run over the
whole range does. The place to take it up never wraps and is never past the end of the range, and if
nothing is found the counts of all legs add up to the size of the range. -/
theorem last_legs_eq_whole (machine : Machine) (s : Settings) (previousHash minerAddress : Bytes)
    (m : Miner) (hm : Miner.ofSettings machine s previousHash minerAddress = .ok m)
    (header target : Bytes)
    (hh : header.length = 140) (ht : 32 ≤ target.length) (range : NonceRange)
    (hrange : range.start ≤ range.stop) (numbers : List Nat) (legs : List Leg)
    (hlegs : m.legs header target range numbers = legs) :
    (∀ leg ∈ legs, leg.rest.start.toNat = leg.range.start.toNat + leg.run.hashes.toNat ∧
      leg.rest.start ≤ range.stop) ∧
      ∃ outcome, (m.mine header target range none).result = .ok outcome ∧ outcome ≠ .stopped ∧
        legs.getLast?.map (·.run.result) = some (.ok outcome) ∧
        (outcome = .exhausted →
          (legs.map (·.run.hashes.toNat)).sum = range.stop.toNat - range.start.toNat) := by
  obtain ⟨bound, hok, -⟩ := Miner.exists_checkAttempt hm hh ht
  obtain ⟨outcome, hresult, hholds⟩ := m.mine_spec range none hok
  obtain ⟨last, hcompletes⟩ := m.exists_completes_legs hok hrange numbers
  have hne : outcome ≠ .stopped := by
    rintro rfl
    exact m.result_mine_none_ne_stopped range hok hresult
  have hlast : last = outcome := hcompletes.holds.unique hcompletes.ne_stopped hne hholds
  rw [hlegs, hlast] at hcompletes
  constructor
  · intro leg hleg
    have hle := hcompletes.count_le leg hleg
    have hrest := leg.toNat_start_rest (Nat.lt_of_le_of_lt hle range.stop.toNat_lt)
    rw [UInt64.le_iff_toNat_le, hrest]
    exact ⟨rfl, hle⟩
  · refine ⟨outcome, hresult, hne, hcompletes.last_eq, ?_⟩
    intro hexhausted
    have hsum := hcompletes.sum_eq hexhausted
    omega

/-- A range up to the largest word, left after the first batch and again at once. -/
theorem last_legs_eq_whole_highest :
    ∃ m legs,
      Miner.ofSettings .single (.default .single) (.replicate 32 0) (.replicate 32 0) = .ok m ∧
      (List.replicate 140 (0 : UInt8)).length = 140 ∧
      32 ≤ (List.replicate 32 (0 : UInt8)).length ∧
      (18446744073709300000 : UInt64) ≤ 18446744073709551615 ∧
      m.legs (.replicate 140 0) (.replicate 32 0) ⟨18446744073709300000, 18446744073709551615⟩
        [1, 0] = legs ∧
      ∃ outcome, outcome ≠ .stopped ∧ legs.getLast?.map (·.run.result) = some (.ok outcome) ∧
        (outcome = .exhausted → (legs.map (·.run.hashes.toNat)).sum = 251615) := by
  have hlength : 32 ≤ (List.replicate 32 (0 : UInt8)).length := by simp
  have hheader : (List.replicate 140 (0 : UInt8)).length = 140 := by simp
  obtain ⟨m, hm⟩ := Miner.exists_ofSettings_default hlength hlength
  obtain ⟨-, outcome, -, hne, hlast, hsum⟩ := last_legs_eq_whole .single (.default .single) _ _ m hm
    (.replicate 140 0) (.replicate 32 0) hheader hlength
    ⟨18446744073709300000, 18446744073709551615⟩ (by decide) [1, 0] _ rfl
  exact ⟨m, _, hm, hheader, hlength, by decide, rfl, outcome, hne, hlast, hsum⟩

end Padwork
