import Padwork.Mining.Miner
import Padwork.Proofs.Engine.Accepted
import Padwork.Proofs.Engine.Scan

/-!
# The progress of a run

Between two batches a run has counted the nonces behind it, none of which meets the
target, and the end of its range is where it was. One batch without a solution keeps
this. So a run ends with the lowest solution of its range, or with none in all of it,
or stops with none among the nonces it has counted.
-/
namespace Padwork

theorem NonceRange.toNat_size {r : NonceRange} (h : r.start ≤ r.stop) :
    r.size.toNat = r.stop.toNat - r.start.toNat := UInt64.toNat_sub_of_le _ _ h

namespace Mining

/-- What holds of a run over a range between two batches. -/
structure Progress.Sound (p : Progress) (e : Engine) (header : Bytes) (bound : Bytes32)
    (range : NonceRange) : Prop where
  stop_eq : p.remaining.stop = range.stop
  start_eq : p.remaining.start.toNat = range.start.toNat + p.hashes.toNat
  last_report : p.reports.back?.getD 0 = p.hashes
  barren : e.Barren header bound range.start.toNat p.remaining.start.toNat

/-- What the end of a run says about the nonces of its range, with the count reported last. -/
def Outcome.Holds (e : Engine) (header : Bytes) (bound : Bytes32) (range : NonceRange)
    (hashes : UInt64) : Outcome → Prop
  | .found solution => e.Lowest header bound range.start.toNat range.stop.toNat solution
  | .exhausted => e.Barren header bound range.start.toNat range.stop.toNat
  | .stopped => e.Barren header bound range.start.toNat (range.start.toNat + hashes.toNat)

variable {e : Engine} {header target : Bytes} {bound : Bytes32} {range : NonceRange}
  {p : Progress}

theorem Progress.sound_start (e : Engine) (header : Bytes) (bound : Bytes32) (range : NonceRange) :
    (start range).Sound e header bound range where
  stop_eq := rfl
  start_eq := rfl
  last_report := rfl
  barren := .of_le (Nat.le_refl _)

theorem Progress.Sound.advance {batch : NonceRange} (h : p.Sound e header bound range)
    (hstart : batch.start = p.remaining.start) (hle : batch.start ≤ batch.stop)
    (hbatch : e.Barren header bound batch.start.toNat batch.stop.toNat) :
    ((p.search batch).advance batch).Sound e header bound range where
  stop_eq := h.stop_eq
  start_eq := by
    have hcount := h.start_eq
    have hsize := NonceRange.toNat_size hle
    have hstop := batch.stop.toNat_lt
    rw [UInt64.le_iff_toNat_le] at hle
    rw [← hstart] at hcount
    simp only [Progress.advance, Progress.search, UInt64.toNat_add, hsize]
    omega
  last_report := by simp [Progress.advance, Progress.search]
  barren := by
    rw [hstart] at hbatch
    exact h.barren.append hbatch

theorem Progress.Sound.hashes_ended (h : p.Sound e header bound range)
    (result : Except Error Outcome) : (p.ended result).hashes = p.hashes := h.last_report

end Mining

open Mining

variable {header target : Bytes} {bound : Bytes32} {range : NonceRange}

/-- With a usable header and target, the rest of a run ends without an error, and what its end
says holds. -/
theorem Miner.walk_spec (m : Miner) (signal : Signal) {p : Progress}
    (hok : m.engine.checkAttempt header target = .ok bound)
    (hp : p.Sound m.engine header bound range) :
    ∃ outcome, (m.walk header target signal p).result = .ok outcome ∧
      outcome.Holds m.engine header bound range (m.walk header target signal p).hashes := by
  fun_induction m.walk header target signal p with
  | case1 p hlt hup =>
    refine ⟨.stopped, rfl, ?_⟩
    rw [Outcome.Holds, hp.hashes_ended, ← hp.start_eq]
    exact hp.barren
  | case2 p hlt hup batch error hsearch =>
    rw [Engine.search_of_checkAttempt hok] at hsearch
    cases hsearch
  | case3 p hlt hup batch solution hsearch =>
    rw [Engine.search_of_checkAttempt hok] at hsearch
    have hlowest := Engine.scan_eq_some_iff.mp (Except.ok.inj hsearch)
    have hstart : range.start.toNat ≤ p.remaining.start.toNat := by
      rw [hp.start_eq]
      exact Nat.le_add_right ..
    have hstop : batch.stop.toNat ≤ range.stop.toNat := by
      rw [← hp.stop_eq]
      exact p.remaining.stop_batch_le m.batchSize
    exact ⟨.found solution, rfl, (hlowest.prepend hp.barren hstart).extend hstop⟩
  | case4 p hlt hup batch hsearch ih =>
    rw [Engine.search_of_checkAttempt hok] at hsearch
    have hbarren := Engine.scan_eq_none_iff.mp (Except.ok.inj hsearch)
    have hbatch := NonceRange.start_lt_stop_batch m.batchSize_pos hlt
    exact ih (hp.advance rfl (UInt64.le_iff_toNat_le.mpr (Nat.le_of_lt hbatch)) hbarren)
  | case5 p hlt =>
    have hend : range.stop.toNat ≤ p.remaining.start.toNat := by
      rw [← hp.stop_eq]
      exact UInt64.le_iff_toNat_le.mp (UInt64.not_lt.mp hlt)
    exact ⟨.exhausted, rfl, hp.barren.take hend⟩

/-- With a usable header and target, a run over a range ends without an error, and what its end
says holds. -/
theorem Miner.mine_spec (m : Miner) (range : NonceRange) (signal : Signal)
    (hok : m.engine.checkAttempt header target = .ok bound) :
    ∃ outcome, (m.mine header target range signal).result = .ok outcome ∧
      outcome.Holds m.engine header bound range (m.mine header target range signal).hashes := by
  rw [mine, Engine.search_of_checkAttempt hok]
  exact m.walk_spec signal hok (Progress.sound_start m.engine header bound range)

end Padwork
