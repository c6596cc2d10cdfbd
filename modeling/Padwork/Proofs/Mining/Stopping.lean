import Padwork.Proofs.Mining.Construction
import Padwork.Proofs.Mining.Ending

/-!
# A stopped run is the front of the whole run

The stop signal is looked at when nonces remain, before the next batch. So a run with
the signal is the run without it as far as the signal, and ends there if nonces remain;
a signal with the last report, or with no report of the run, changes nothing.
-/
namespace Padwork
namespace Mining

/-- The count reported with the report of this number. Before the first report it is zero. -/
def Run.countAt (r : Run) : Nat → UInt64
  | 0 => 0
  | number + 1 => r.reports.getD number 0

/-- The front of a run up to the report of this number, as a stopped run. -/
def Run.stoppedAt (r : Run) (number : Nat) : Run :=
  ⟨r.batches.take number, r.reports.take number, .ok .stopped⟩

/-- Whether nonces of the range remain when the report of this number has been made. -/
def Run.Leaves (r : Run) (range : NonceRange) (number : Nat) : Prop :=
  number ≤ r.reports.size ∧ range.start < range.stop ∧
    range.start.toNat + (r.countAt number).toNat < range.stop.toNat

instance (r : Run) (range : NonceRange) (number : Nat) : Decidable (r.Leaves range number) :=
  inferInstanceAs (Decidable (_ ∧ _ ∧ _))

/-- What a signal with the report of this number makes of a run. -/
def Run.cut (r : Run) (range : NonceRange) (number : Nat) : Run :=
  if r.Leaves range number then r.stoppedAt number else r

variable {r : Run} {p : Progress} {range : NonceRange} {number : Nat}

/-- A run that ends before the signal comes is not cut. -/
theorem Run.cut_of_size_lt (h : r.reports.size < number) : r.cut range number = r :=
  if_neg fun hleaves => Nat.not_le_of_lt h hleaves.1

theorem Run.countAt_eq_back? (h : number ≤ r.reports.size) :
    r.countAt number = (r.reports.take number).back?.getD 0 := by
  cases number with
  | zero => simp [countAt]
  | succ number =>
    have hsize : (r.reports.take (number + 1)).size = number + 1 := by
      rw [Array.take_eq_extract, Array.size_extract, Nat.min_eq_left h, Nat.sub_zero]
    rw [Array.back?, hsize]
    simp [countAt, Nat.lt_of_succ_le h]

theorem Run.countAt_size (r : Run) : r.countAt r.reports.size = r.hashes := by
  rw [countAt_eq_back? (Nat.le_refl _), hashes]
  simp

/-! ## What a run has done stays part of it -/

/-- The run goes on from where it has come to, its batches and reports so far in front. -/
structure Run.GoesOn (r : Run) (p : Progress) : Prop where
  size_le : p.reports.size ≤ r.reports.size
  reports_eq : r.reports.take p.reports.size = p.reports
  batches_eq : r.batches.take p.reports.size = p.batches

theorem Progress.size_reports_advance (p : Progress) (batch : NonceRange) :
    ((p.search batch).advance batch).reports.size = p.reports.size + 1 := Array.size_push _

theorem Progress.size_advance (h : p.batches.size = p.reports.size) (batch : NonceRange) :
    ((p.search batch).advance batch).batches.size =
      ((p.search batch).advance batch).reports.size := by
  simp [advance, search, h]

theorem Run.goesOn_ended (h : p.batches.size = p.reports.size) (result : Except Error Outcome) :
    (p.ended result).GoesOn p where
  size_le := Nat.le_refl _
  reports_eq := by simp [Progress.ended]
  batches_eq := by simp [Progress.ended, ← h]

theorem Run.goesOn_ended_search (h : p.batches.size = p.reports.size) (batch : NonceRange)
    (result : Except Error Outcome) : ((p.search batch).ended result).GoesOn p where
  size_le := Nat.le_refl _
  reports_eq := by simp [Progress.ended, Progress.search]
  batches_eq := by simp [Progress.ended, Progress.search, ← h]

theorem Run.GoesOn.of_advance {batch : NonceRange} (h : p.batches.size = p.reports.size)
    (hr : r.GoesOn ((p.search batch).advance batch)) : r.GoesOn p where
  size_le := by
    have hsize := hr.size_le
    rw [Progress.size_reports_advance] at hsize
    exact Nat.le_of_succ_le hsize
  reports_eq := by
    have hreports := congrArg (·.take p.reports.size) hr.reports_eq
    simpa [Progress.advance, Progress.search] using hreports
  batches_eq := by
    have hbatches := congrArg (·.take p.reports.size) hr.batches_eq
    simpa [Progress.advance, Progress.search, ← h] using hbatches

theorem Run.GoesOn.stoppedAt_eq (h : r.GoesOn p) :
    r.stoppedAt p.reports.size = p.ended (.ok .stopped) := by
  rw [stoppedAt, h.reports_eq, h.batches_eq, Progress.ended]

theorem Run.GoesOn.leaves_iff {e : Engine} {header : Bytes} {bound : Bytes32}
    (h : r.GoesOn p) (hp : p.Sound e header bound range) :
    r.Leaves range p.reports.size ↔ p.remaining.start < p.remaining.stop := by
  have hcount : r.countAt p.reports.size = p.hashes := by
    rw [countAt_eq_back? h.size_le, h.reports_eq, hp.last_report]
  have hstart := hp.start_eq
  rw [Leaves, hcount, UInt64.lt_iff_toNat_lt, UInt64.lt_iff_toNat_lt, hp.stop_eq]
  have hsize := h.size_le
  omega

end Mining

namespace Miner
open Mining

variable {header target : Bytes} {bound : Bytes32} {range : NonceRange}

theorem walk_goesOn (m : Miner) (header target : Bytes) (signal : Signal) {p : Progress}
    (h : p.batches.size = p.reports.size) : (m.walk header target signal p).GoesOn p := by
  fun_induction m.walk header target signal p with
  | case1 p hlt hup => exact Run.goesOn_ended h _
  | case2 p hlt hup batch error hsearch => exact Run.goesOn_ended_search h batch _
  | case3 p hlt hup batch solution hsearch => exact Run.goesOn_ended_search h batch _
  | case4 p hlt hup batch hsearch ih => exact (ih (Progress.size_advance h batch)).of_advance h
  | case5 p hlt => exact Run.goesOn_ended h _

/-! ## Two runs side by side -/

/-- A signal that comes now stops the run here if nonces remain, and changes nothing otherwise. -/
theorem walk_signal_now (m : Miner) {p : Progress} (hp : p.Sound m.engine header bound range)
    (hsize : p.batches.size = p.reports.size) :
    m.walk header target (some p.reports.size) p =
      (m.walk header target none p).cut range p.reports.size := by
  have hgoes := m.walk_goesOn header target none hsize
  rw [Run.cut]
  by_cases hlt : p.remaining.start < p.remaining.stop
  · have hup : Signal.isUp (some p.reports.size) p.reports.size = true := by simp [Signal.isUp]
    rw [if_pos ((hgoes.leaves_iff hp).mpr hlt), hgoes.stoppedAt_eq, m.walk_of_isUp hlt hup]
  · rw [if_neg (hlt ∘ (hgoes.leaves_iff hp).mp), m.walk_of_not_lt hlt, m.walk_of_not_lt hlt]

/-- A signal that comes with a later report lets the next batch be. -/
theorem walk_signal_later (m : Miner) {number : Nat} {p : Progress}
    (hok : m.engine.checkAttempt header target = .ok bound)
    (hp : p.Sound m.engine header bound range) (hsize : p.batches.size = p.reports.size)
    (hlater : p.reports.size < number) :
    m.walk header target (some number) p = (m.walk header target none p).cut range number := by
  have hdown {p : Progress} (h : p.reports.size < number) :
      Signal.isUp (some number) p.reports.size = false := by
    simpa [Signal.isUp] using h
  -- along the run without the signal, which takes the same batches
  induction p using walk.induct m header target none with
  | case1 p hlt hup => cases hup
  | case2 p hlt hup batch error hsearch =>
    rw [Engine.search_of_checkAttempt hok] at hsearch
    cases hsearch
  | case3 p hlt hup batch solution hsearch =>
    rw [Engine.search_of_checkAttempt hok] at hsearch
    have hscan := Except.ok.inj hsearch
    rw [m.walk_of_scan_eq_some hok hlt (hdown hlater) rfl hscan,
      m.walk_of_scan_eq_some hok hlt rfl rfl hscan]
    exact (Run.cut_of_size_lt hlater).symm
  | case4 p hlt hup batch hsearch ih =>
    rw [Engine.search_of_checkAttempt hok] at hsearch
    have hscan := Except.ok.inj hsearch
    have hnext := hp.pass m.batchSize_pos hlt rfl hscan
    have hsize' := Progress.size_advance hsize batch
    have hcount := p.size_reports_advance batch
    rw [m.walk_of_scan_eq_none hok hlt (hdown hlater) rfl hscan,
      m.walk_of_scan_eq_none hok hlt rfl rfl hscan]
    -- the signal comes with the report of this batch, or still later
    rcases Nat.eq_or_lt_of_le (Nat.succ_le_of_lt hlater) with hnow | hstill
    · rw [← hnow, Nat.succ_eq_add_one, ← hcount]
      exact m.walk_signal_now hnext hsize'
    · exact ih hnext hsize' (hcount ▸ hstill)
  | case5 p hlt =>
    rw [m.walk_of_not_lt hlt, m.walk_of_not_lt hlt]
    exact (Run.cut_of_size_lt hlater).symm

theorem mine_signal (m : Miner) (range : NonceRange) (number : Nat)
    (hok : m.engine.checkAttempt header target = .ok bound) :
    m.mine header target range (some number) =
      (m.mine header target range none).cut range number := by
  have hsound := Progress.sound_start m.engine header bound range
  rw [mine, mine, Engine.search_of_checkAttempt hok]
  cases number with
  | zero => exact m.walk_signal_now hsound rfl
  | succ number => exact m.walk_signal_later hok hsound rfl (Nat.succ_pos number)

end Miner

open Mining

/-- A run of a miner for a template ends without an error. With a signal at the report of some
number it is the front of the whole run if nonces remain then, and else the whole run. So a signal
with the last report of an exhausted range comes too late, and so does each signal when there is
nothing to search. -/
theorem mine_signal_eq_front (machine : Machine) (s : Settings) (previousHash minerAddress : Bytes)
    (m : Miner) (hm : Miner.ofSettings machine s previousHash minerAddress = .ok m)
    (header target : Bytes)
    (hh : header.length = 140) (ht : 32 ≤ target.length) (range : NonceRange) (whole : Run)
    (hwhole : m.mine header target range none = whole) :
    ∃ outcome, whole.result = .ok outcome ∧
      (∀ number, m.mine header target range (some number) =
        if whole.Leaves range number then whole.stoppedAt number else whole) ∧
      (outcome = .exhausted →
        m.mine header target range (some whole.reports.size) = whole) ∧
      (range.stop ≤ range.start →
        outcome = .exhausted ∧ m.mine header target range (some 0) = whole) := by
  obtain ⟨bound, hok, -⟩ := Miner.exists_checkAttempt hm hh ht
  obtain ⟨outcome, hresult, -⟩ := m.mine_spec range none hok
  have hsignal (number : Nat) := m.mine_signal range number hok
  have hcounts := m.mine_counts range none hok
  rw [hwhole] at hresult hsignal hcounts
  refine ⟨outcome, hresult, hsignal, ?_, ?_⟩
  · rintro rfl
    have hstop := hcounts.stop_le hresult
    rw [hsignal, Run.cut, if_neg]
    rintro ⟨-, -, hlt⟩
    rw [whole.countAt_size] at hlt
    omega
  · intro hempty
    have hnot : ¬range.start < range.stop := UInt64.not_lt.mpr hempty
    have hexhausted : whole = (Progress.start range).ended (.ok .exhausted) := by
      rw [← hwhole, Miner.mine, Engine.search_of_checkAttempt hok]
      exact m.walk_of_not_lt hnot
    constructor
    · rw [hexhausted] at hresult
      exact (Except.ok.inj hresult).symm
    · rw [hsignal, Run.cut, if_neg fun hleaves => hnot hleaves.2.1]

/-- A range of two batches and a half, cut after the first. -/
theorem mine_signal_eq_front_default :
    ∃ m whole,
      Miner.ofSettings .single (.default .single) (.replicate 32 0) (.replicate 32 0) = .ok m ∧
      (List.replicate 140 (0 : UInt8)).length = 140 ∧
      32 ≤ (List.replicate 32 (0 : UInt8)).length ∧
      m.mine (.replicate 140 0) (.replicate 32 0) ⟨5, 250005⟩ none = whole ∧
      ∃ outcome, whole.result = .ok outcome ∧
        m.mine (.replicate 140 0) (.replicate 32 0) ⟨5, 250005⟩ (some 1) =
          if whole.Leaves ⟨5, 250005⟩ 1 then whole.stoppedAt 1 else whole := by
  have hlength : 32 ≤ (List.replicate 32 (0 : UInt8)).length := by simp
  have hheader : (List.replicate 140 (0 : UInt8)).length = 140 := by simp
  obtain ⟨m, hm⟩ := Miner.exists_ofSettings_default hlength hlength
  obtain ⟨outcome, hresult, hsignal, -, -⟩ := mine_signal_eq_front .single (.default .single) _ _
    m hm (.replicate 140 0) (.replicate 32 0) hheader hlength ⟨5, 250005⟩ _ rfl
  exact ⟨m, _, hm, hheader, hlength, rfl, outcome, hresult, hsignal 1⟩

end Padwork
