import Padwork.Proofs.Mining.Progress

/-!
# How a run ends

A run goes from batch to batch as long as nonces remain, no signal has come and no batch
has a solution. What each such batch keeps therefore holds where the run ends. The count
of a run never goes past its range, and it is all of the range when the run is exhausted.
-/
namespace Padwork
namespace Miner
open Mining

variable {header target : Bytes} {bound : Bytes32} {range : NonceRange} {signal : Signal}
  {p : Progress}

/-! ## One pass -/

theorem walk_of_isUp (m : Miner) (hlt : p.remaining.start < p.remaining.stop)
    (hup : signal.isUp p.reports.size = true) :
    m.walk header target signal p = p.ended (.ok .stopped) := by
  rw [walk, if_pos hlt, if_pos hup]

theorem walk_of_not_lt (m : Miner) (hlt : ¬p.remaining.start < p.remaining.stop) :
    m.walk header target signal p = p.ended (.ok .exhausted) := by
  rw [walk, if_neg hlt]

section
variable (m : Miner) (hok : m.engine.checkAttempt header target = .ok bound)
  (hlt : p.remaining.start < p.remaining.stop) (hup : signal.isUp p.reports.size = false)
  {batch : NonceRange} (hbatch : batch = p.remaining.batch m.batchSize)
include hok hlt hup hbatch

theorem walk_of_scan_eq_some {solution : Solution}
    (hscan : m.engine.scan header bound batch.start batch.stop = some solution) :
    m.walk header target signal p = (p.search batch).ended (.ok (.found solution)) := by
  rw [walk, if_pos hlt, if_neg (Bool.eq_false_iff.mp hup)]
  simp only [Engine.search_of_checkAttempt hok, ← hbatch, hscan]

theorem walk_of_scan_eq_none
    (hscan : m.engine.scan header bound batch.start batch.stop = none) :
    m.walk header target signal p =
      m.walk header target signal ((p.search batch).advance batch) := by
  rw [walk, if_pos hlt, if_neg (Bool.eq_false_iff.mp hup)]
  simp only [Engine.search_of_checkAttempt hok, ← hbatch, hscan]

end

/-! ## All passes -/

/-- How a run ends that has come so far and goes no further. -/
inductive EndsAt (m : Miner) (header : Bytes) (bound : Bytes32) (signal : Signal) (p : Progress) :
    Run → Prop where
  | stopped (hlt : p.remaining.start < p.remaining.stop)
      (hup : signal.isUp p.reports.size = true) :
      EndsAt m header bound signal p (p.ended (.ok .stopped))
  | found {batch : NonceRange} {solution : Solution}
      (hlt : p.remaining.start < p.remaining.stop) (hup : signal.isUp p.reports.size = false)
      (hbatch : batch = p.remaining.batch m.batchSize)
      (hscan : m.engine.scan header bound batch.start batch.stop = some solution) :
      EndsAt m header bound signal p ((p.search batch).ended (.ok (.found solution)))
  | exhausted (hlt : ¬p.remaining.start < p.remaining.stop) :
      EndsAt m header bound signal p (p.ended (.ok .exhausted))

theorem exists_walk_endsAt (m : Miner) (signal : Signal)
    (hok : m.engine.checkAttempt header target = .ok bound) {Inv : Progress → Prop}
    (hstep : ∀ p batch, Inv p → p.remaining.start < p.remaining.stop →
      batch = p.remaining.batch m.batchSize →
      m.engine.scan header bound batch.start batch.stop = none →
        Inv ((p.search batch).advance batch))
    {p : Progress} (hp : Inv p) :
    ∃ last, Inv last ∧ m.EndsAt header bound signal last (m.walk header target signal p) := by
  fun_induction m.walk header target signal p with
  | case1 p hlt hup => exact ⟨p, hp, .stopped hlt hup⟩
  | case2 p hlt hup batch error hsearch =>
    rw [Engine.search_of_checkAttempt hok] at hsearch
    cases hsearch
  | case3 p hlt hup batch solution hsearch =>
    rw [Engine.search_of_checkAttempt hok] at hsearch
    exact ⟨p, hp, .found hlt (Bool.eq_false_iff.mpr hup) rfl (Except.ok.inj hsearch)⟩
  | case4 p hlt hup batch hsearch ih =>
    rw [Engine.search_of_checkAttempt hok] at hsearch
    exact ih (hstep p batch hp hlt rfl (Except.ok.inj hsearch))
  | case5 p hlt => exact ⟨p, hp, .exhausted hlt⟩

end Miner

/-! ## The count of a run -/

namespace Mining

/-- Between two batches, a run over a range that does not end before it starts is not past the end
of the range. -/
structure Progress.Within (p : Progress) (e : Engine) (header : Bytes) (bound : Bytes32)
    (range : NonceRange) : Prop extends p.Sound e header bound range where
  start_le_stop : range.start ≤ range.stop → p.remaining.start ≤ p.remaining.stop

/-- What the count reported last says about the range of a run. -/
structure Run.Counts (r : Run) (range : NonceRange) : Prop where
  le_stop : range.start ≤ range.stop → range.start.toNat + r.hashes.toNat ≤ range.stop.toNat
  stop_le : r.result = .ok .exhausted → range.stop.toNat ≤ range.start.toNat + r.hashes.toNat

/-- How a run ends that is not stopped, by what a scan of its range gives. -/
def Outcome.ofScan : Option Solution → Outcome
  | some solution => .found solution
  | none => .exhausted

variable {e : Engine} {header : Bytes} {bound : Bytes32} {range : NonceRange} {p : Progress}

theorem Progress.Sound.pass {size : UInt64} {batch : NonceRange}
    (h : p.Sound e header bound range) (hsize : 0 < size)
    (hlt : p.remaining.start < p.remaining.stop) (hbatch : batch = p.remaining.batch size)
    (hscan : e.scan header bound batch.start batch.stop = none) :
    ((p.search batch).advance batch).Sound e header bound range := by
  subst hbatch
  have hle := Nat.le_of_lt (NonceRange.start_lt_stop_batch hsize hlt)
  exact h.advance rfl (UInt64.le_iff_toNat_le.mpr hle) (Engine.scan_eq_none_iff.mp hscan)

end Mining

namespace Miner
open Mining

variable {header target : Bytes} {bound : Bytes32} {range : NonceRange} {signal : Signal}
  {p : Progress} {r : Run}

theorem EndsAt.hashes_eq {m : Miner} (h : m.EndsAt header bound signal p r)
    (hp : p.Sound m.engine header bound range) : r.hashes = p.hashes := by
  cases h with
  | stopped => exact hp.hashes_ended _
  | found => exact hp.last_report
  | exhausted => exact hp.hashes_ended _

/-- With a usable header and target, a run over a range ends between two batches, or in a batch
with a solution. -/
theorem exists_mine_endsAt (m : Miner) (range : NonceRange) (signal : Signal)
    (hok : m.engine.checkAttempt header target = .ok bound) :
    ∃ p : Progress, p.Within m.engine header bound range ∧
      m.EndsAt header bound signal p (m.mine header target range signal) := by
  rw [mine, Engine.search_of_checkAttempt hok]
  refine m.exists_walk_endsAt signal hok ?_ ⟨Progress.sound_start _ _ _ range, id⟩
  intro p batch hp hlt hbatch hscan
  refine ⟨hp.toSound.pass m.batchSize_pos hlt hbatch hscan, fun _ => ?_⟩
  rw [hbatch]
  exact UInt64.le_iff_toNat_le.mpr (p.remaining.stop_batch_le m.batchSize)

theorem mine_counts (m : Miner) (range : NonceRange) (signal : Signal)
    (hok : m.engine.checkAttempt header target = .ok bound) :
    (m.mine header target range signal).Counts range := by
  obtain ⟨p, hp, hends⟩ := m.exists_mine_endsAt range signal hok
  have hcount := hp.start_eq
  rw [← hends.hashes_eq hp.toSound] at hcount
  constructor
  · intro hrange
    rw [← hcount, ← hp.stop_eq]
    exact UInt64.le_iff_toNat_le.mp (hp.start_le_stop hrange)
  · intro hresult
    generalize m.mine header target range signal = r at *
    cases hends with
    | stopped => cases hresult
    | found => cases hresult
    | exhausted hlt =>
      rw [← hcount, ← hp.stop_eq]
      exact UInt64.le_iff_toNat_le.mp (UInt64.not_lt.mp hlt)

/-- An unusable header or target ends a run before its first batch, whatever the range and the
signal. -/
theorem mine_of_refused (m : Miner) {error : Engine.Error}
    (h : m.engine.checkAttempt header target = .error error) (range : NonceRange)
    (signal : Signal) :
    m.mine header target range signal = (Progress.start range).ended (.error (.engine error)) := by
  have hsearch : m.engine.search header target .empty = .error error := by
    simp only [Engine.search, h]
    rfl
  rw [mine, hsearch]

theorem exists_checkAttempt_of_result (m : Miner) {outcome : Outcome}
    (h : (m.mine header target range signal).result = .ok outcome) :
    ∃ bound, m.engine.checkAttempt header target = .ok bound := by
  cases hok : m.engine.checkAttempt header target with
  | ok bound => exact ⟨bound, rfl⟩
  | error error =>
    rw [m.mine_of_refused hok] at h
    cases h

/-- A run without a signal is never stopped. -/
theorem result_mine_none_ne_stopped (m : Miner) (range : NonceRange)
    (hok : m.engine.checkAttempt header target = .ok bound) :
    (m.mine header target range none).result ≠ .ok .stopped := by
  obtain ⟨p, -, hends⟩ := m.exists_mine_endsAt range none hok
  generalize m.mine header target range none = r at *
  intro hresult
  cases hends with
  | stopped hlt hup => cases hup
  | found => cases hresult
  | exhausted => cases hresult

/-- A run without a signal ends with what a scan of its whole range gives. -/
theorem result_mine_none (m : Miner) (range : NonceRange)
    (hok : m.engine.checkAttempt header target = .ok bound) :
    (m.mine header target range none).result =
      .ok (.ofScan (m.engine.scan header bound range.start range.stop)) := by
  obtain ⟨outcome, hresult, hholds⟩ := m.mine_spec range none hok
  rw [hresult]
  cases outcome with
  | found solution => rw [Engine.scan_eq_some_iff.mpr hholds, Outcome.ofScan]
  | exhausted => rw [Engine.scan_eq_none_iff.mpr hholds, Outcome.ofScan]
  | stopped => exact absurd hresult (m.result_mine_none_ne_stopped range hok)

end Miner

end Padwork
