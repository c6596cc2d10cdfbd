import Padwork.Proofs.Mining.Stopping

/-!
# The batches of a run tile its range

A run that is never stopped cuts its range into batches of the size that was set, the last
one perhaps shorter. The ends of the batches and the reported counts are words, made by
saturating and wrapping operations; they are the exact numbers for each size and each
range, up to the largest word. Between two batches a run has a whole number of tiles behind
it, and one batch without a solution keeps this.
-/
namespace Padwork

/-- The batch is the part of the range with this number, counted from zero, in exact arithmetic. -/
structure NonceRange.IsTile (batch range : NonceRange) (size number : Nat) : Prop where
  start_eq : batch.start.toNat = min (range.start.toNat + number * size) range.stop.toNat
  stop_eq : batch.stop.toNat = min (range.start.toNat + (number + 1) * size) range.stop.toNat
  start_lt_stop : batch.start < batch.stop

namespace NonceRange

variable {batch range remaining : NonceRange} {number : Nat}

theorem IsTile.start_add_lt {size : Nat} (h : batch.IsTile range size number) :
    range.start.toNat + number * size < range.stop.toNat ∧
      batch.start.toNat = range.start.toNat + number * size := by
  have hstart := h.start_eq
  have hlt := UInt64.lt_iff_toNat_lt.mp h.start_lt_stop
  have hle : batch.stop.toNat ≤ range.stop.toNat := by
    rw [h.stop_eq]
    exact Nat.min_le_right ..
  omega

theorem isTile_batch {size : UInt64} (hsize : 0 < size)
    (hstart : remaining.start.toNat =
      max range.start.toNat (min (range.start.toNat + number * size.toNat) range.stop.toNat))
    (hstop : remaining.stop = range.stop) (hlt : remaining.start < remaining.stop) :
    (remaining.batch size).IsTile range size.toNat number where
  start_eq := by
    rw [UInt64.lt_iff_toNat_lt, hstop] at hlt
    rw [start_batch]
    omega
  stop_eq := by
    rw [UInt64.lt_iff_toNat_lt, hstop] at hlt
    rw [toNat_stop_batch, hstop, Nat.add_one_mul]
    omega
  start_lt_stop := by
    rw [UInt64.lt_iff_toNat_lt, start_batch]
    exact start_lt_stop_batch hsize hlt

end NonceRange

namespace Mining

/-- Between two batches, a run has so many tiles behind it as it has made reports. A range that ends
before it starts has no tiles. -/
structure Progress.Tiled (p : Progress) (e : Engine) (header : Bytes) (bound : Bytes32)
    (range : NonceRange) (size : Nat) : Prop extends p.Sound e header bound range where
  size_eq : p.batches.size = p.reports.size
  next_eq : p.remaining.start.toNat = max range.start.toNat
    (min (range.start.toNat + p.reports.size * size) range.stop.toNat)
  isTile : ∀ (number : Nat) (batch : NonceRange), p.batches[number]? = some batch →
    batch.IsTile range size number
  report_eq : ∀ (number : Nat) (count : UInt64), p.reports[number]? = some count →
    count.toNat = min ((number + 1) * size) (range.stop.toNat - range.start.toNat)

/-- The batches of a run are tiles, each behind the one before it. No difference of two ends and no
sum of counts wraps. -/
structure Run.Tiles (r : Run) (range : NonceRange) (size : Nat) : Prop where
  isTile : ∀ (number : Nat) (batch : NonceRange), r.batches[number]? = some batch →
    batch.IsTile range size number
  start_eq_stop : ∀ (number : Nat) (batch next : NonceRange), r.batches[number]? = some batch →
    r.batches[number + 1]? = some next → next.start = batch.stop
  size_eq : ∀ (number : Nat) (batch : NonceRange), r.batches[number]? = some batch →
    batch.size.toNat = batch.stop.toNat - batch.start.toNat
  count_eq : ∀ (number : Nat) (batch : NonceRange) (count : UInt64),
    r.batches[number]? = some batch → r.reports[number]? = some count →
      count.toNat = (r.countAt number).toNat + batch.size.toNat

variable {e : Engine} {header : Bytes} {bound : Bytes32} {range : NonceRange} {p : Progress}
  {r : Run}

/-! ## One batch -/

theorem getElem?_push {α : Type} {xs : Array α} {x y : α} {number : Nat}
    (h : (xs.push x)[number]? = some y) : xs[number]? = some y ∨ number = xs.size ∧ y = x := by
  rw [Array.getElem?_push] at h
  split at h
  · next hnumber => exact .inr ⟨hnumber, (Option.some.inj h).symm⟩
  · exact .inl h

theorem Progress.tiled_start (e : Engine) (header : Bytes) (bound : Bytes32) (range : NonceRange)
    (size : Nat) : (start range).Tiled e header bound range size where
  toSound := sound_start e header bound range
  size_eq := rfl
  next_eq := by
    simp only [start, Array.size_empty]
    omega
  isTile := by simp [start]
  report_eq := by simp [start]

theorem Progress.Tiled.isTile_search {size : UInt64} {batch : NonceRange}
    (h : p.Tiled e header bound range size.toNat) (hsize : 0 < size)
    (hlt : p.remaining.start < p.remaining.stop) (hbatch : batch = p.remaining.batch size) :
    ∀ (number : Nat) (other : NonceRange), (p.search batch).batches[number]? = some other →
      other.IsTile range size.toNat number := by
  intro number other hother
  rcases getElem?_push hother with hold | ⟨rfl, rfl⟩
  · exact h.isTile number other hold
  · rw [h.size_eq, hbatch]
    exact NonceRange.isTile_batch hsize h.next_eq h.stop_eq hlt

theorem Progress.Tiled.pass {size : UInt64} {batch : NonceRange}
    (h : p.Tiled e header bound range size.toNat) (hsize : 0 < size)
    (hlt : p.remaining.start < p.remaining.stop) (hbatch : batch = p.remaining.batch size)
    (hscan : e.scan header bound batch.start batch.stop = none) :
    ((p.search batch).advance batch).Tiled e header bound range size.toNat := by
  have hsound := h.toSound.pass hsize hlt hbatch hscan
  have htile := NonceRange.isTile_batch hsize h.next_eq h.stop_eq hlt
  rw [← hbatch] at htile
  have hnext : batch.stop.toNat = range.start.toNat +
      ((p.search batch).advance batch).hashes.toNat := hsound.start_eq
  refine ⟨hsound, Progress.size_advance h.size_eq batch, ?_, h.isTile_search hsize hlt hbatch, ?_⟩
  · have hlt' := UInt64.lt_iff_toNat_lt.mp htile.start_lt_stop
    have hstart := htile.start_eq
    rw [p.size_reports_advance, ← htile.stop_eq]
    change batch.stop.toNat = _
    omega
  · intro number count hcount
    rcases getElem?_push hcount with hold | ⟨rfl, rfl⟩
    · exact h.report_eq number count hold
    · have hstop := htile.stop_eq
      change ((p.search batch).advance batch).hashes.toNat = min ((p.reports.size + 1) * _) _
      omega

/-! ## A whole run -/

/-- Tiles with exact reports behind all but perhaps the last of them make no sum wrap. -/
theorem Run.tiles_of_isTile {size : Nat}
    (htile : ∀ (number : Nat) (batch : NonceRange), r.batches[number]? = some batch →
      batch.IsTile range size number)
    (hreport : ∀ (number : Nat) (count : UInt64), r.reports[number]? = some count →
      count.toNat = min ((number + 1) * size) (range.stop.toNat - range.start.toNat)) :
    r.Tiles range size where
  isTile := htile
  start_eq_stop := by
    intro number batch next hbatch hnext
    apply UInt64.toNat_inj.mp
    rw [(htile _ _ hbatch).stop_eq, (htile _ _ hnext).start_eq]
  size_eq := by
    intro number batch hbatch
    exact NonceRange.toNat_size (UInt64.le_of_lt (htile _ _ hbatch).start_lt_stop)
  count_eq := by
    intro number batch count hbatch hcount
    have htile := htile number batch hbatch
    have hstop := htile.stop_eq
    obtain ⟨hbegin, hstart⟩ := htile.start_add_lt
    have hbefore : (r.countAt number).toNat = number * size := by
      cases number with
      | zero => simp [Run.countAt]
      | succ number =>
        obtain ⟨hlt, -⟩ := Array.getElem?_eq_some_iff.mp hcount
        have hprevious := hreport number _ (Array.getElem?_eq_getElem (Nat.lt_of_succ_lt hlt))
        have hcountAt : r.countAt (number + 1) = r.reports[number] := by
          simp [Run.countAt, Nat.lt_of_succ_lt hlt]
        rw [hcountAt, hprevious]
        omega
    rw [hbefore, hreport number count hcount,
      NonceRange.toNat_size (UInt64.le_of_lt htile.start_lt_stop)]
    rw [Nat.add_one_mul] at hstop ⊢
    omega

theorem eq_ceil_of_lt_of_le {total size number : Nat} (hsize : 0 < size)
    (hlast : number ≠ 0 → (number - 1) * size < total) (hall : total ≤ number * size) :
    number = (total + size - 1) / size := by
  symm
  apply Nat.div_eq_of_lt_le
  · cases number with
    | zero => simp
    | succ number =>
      have hbegin := hlast (Nat.succ_ne_zero number)
      rw [Nat.add_sub_cancel] at hbegin
      rw [Nat.add_one_mul]
      omega
  · rw [Nat.add_one_mul]
    omega

/-- An exhausted run has reported each of its tiles, and the last report counts the range. -/
structure Run.Exhausts (r : Run) (range : NonceRange) (size : Nat) : Prop where
  result_eq : r.result = .ok .exhausted
  size_batches : r.batches.size = r.reports.size
  size_reports : r.reports.size = (range.stop.toNat - range.start.toNat + size - 1) / size
  report_eq : ∀ (number : Nat) (count : UInt64), r.reports[number]? = some count →
    count.toNat = min ((number + 1) * size) (range.stop.toNat - range.start.toNat)
  hashes_eq : r.hashes.toNat = range.stop.toNat - range.start.toNat

/-- A run with a solution has reported the tiles before the one that holds it, which are all
whole. -/
structure Run.Finds (r : Run) (range : NonceRange) (size : Nat) (solution : Solution) : Prop where
  result_eq : r.result = .ok (.found solution)
  start_le : range.start ≤ solution.nonce
  size_batches : r.batches.size = r.reports.size + 1
  size_reports : r.reports.size = (solution.nonce.toNat - range.start.toNat) / size
  report_eq : ∀ (number : Nat) (count : UInt64), r.reports[number]? = some count →
    count.toNat = (number + 1) * size

theorem Progress.Tiled.exhausts {size : Nat} (h : p.Tiled e header bound range size)
    (hsize : 0 < size) (hend : ¬p.remaining.start < p.remaining.stop) :
    (p.ended (.ok .exhausted)).Exhausts range size where
  result_eq := rfl
  size_batches := h.size_eq
  size_reports := by
    have hnext := h.next_eq
    rw [UInt64.lt_iff_toNat_lt, h.stop_eq] at hend
    refine eq_ceil_of_lt_of_le hsize ?_ ?_
    · intro hreports
      change p.reports.size ≠ 0 at hreports
      have hlt : p.reports.size - 1 < p.batches.size := by
        rw [h.size_eq]
        omega
      have hlast := (h.isTile _ _ (Array.getElem?_eq_getElem hlt)).start_add_lt
      change (p.reports.size - 1) * size < _
      omega
    · change _ ≤ p.reports.size * size
      omega
  report_eq := h.report_eq
  hashes_eq := by
    have hnext := h.next_eq
    have hcount := h.start_eq
    rw [UInt64.lt_iff_toNat_lt, h.stop_eq] at hend
    rw [h.toSound.hashes_ended]
    omega

theorem Progress.Tiled.finds {size : UInt64} {batch : NonceRange} {solution : Solution}
    (h : p.Tiled e header bound range size.toNat) (hsize : 0 < size)
    (hlt : p.remaining.start < p.remaining.stop) (hbatch : batch = p.remaining.batch size)
    (hscan : e.scan header bound batch.start batch.stop = some solution) :
    ((p.search batch).ended (.ok (.found solution))).Finds range size.toNat solution := by
  have htile := NonceRange.isTile_batch hsize h.next_eq h.stop_eq hlt
  rw [← hbatch] at htile
  obtain ⟨hbegin, hstart⟩ := htile.start_add_lt
  have hstop := htile.stop_eq
  have hlowest := Engine.scan_eq_some_iff.mp hscan
  have hle := hlowest.start_le
  have hlt' := hlowest.lt_stop
  refine ⟨rfl, ?_, ?_, ?_, ?_⟩
  · rw [UInt64.le_iff_toNat_le]
    omega
  · simp [Progress.ended, Progress.search, h.size_eq]
  · symm
    apply Nat.div_eq_of_lt_le
    · change p.reports.size * size.toNat ≤ _
      omega
    · change _ < (p.reports.size + 1) * size.toNat
      omega
  · intro number count hcount
    obtain ⟨hnumber, -⟩ := Array.getElem?_eq_some_iff.mp hcount
    have hwhole : (number + 1) * size.toNat ≤ p.reports.size * size.toNat :=
      Nat.mul_le_mul_right _ hnumber
    rw [h.report_eq number count hcount]
    omega

end Mining

open Mining

theorem Miner.mine_tiles {header target : Bytes} {bound : Bytes32} (m : Miner)
    (range : NonceRange) (hok : m.engine.checkAttempt header target = .ok bound) :
    (m.mine header target range none).Tiles range m.batchSize.toNat ∧
      ((m.mine header target range none).Exhausts range m.batchSize.toNat ∨
        ∃ solution, (m.mine header target range none).Finds range m.batchSize.toNat solution) := by
  have hstart := Progress.tiled_start m.engine header bound range m.batchSize.toNat
  have hpos : 0 < m.batchSize.toNat := UInt64.lt_iff_toNat_lt.mp m.batchSize_pos
  have hstep (p : Progress) (batch : NonceRange)
      (hp : p.Tiled m.engine header bound range m.batchSize.toNat)
      (hlt : p.remaining.start < p.remaining.stop)
      (hbatch : batch = p.remaining.batch m.batchSize)
      (hscan : m.engine.scan header bound batch.start batch.stop = none) :=
    hp.pass m.batchSize_pos hlt hbatch hscan
  rw [mine, Engine.search_of_checkAttempt hok]
  obtain ⟨p, hp, hends⟩ := m.exists_walk_endsAt none hok hstep hstart
  generalize m.walk header target none (.start range) = r at hends
  cases hends with
  | stopped hlt hup => cases hup
  | found hlt hup hbatch hscan =>
    exact ⟨Run.tiles_of_isTile (hp.isTile_search m.batchSize_pos hlt hbatch) hp.report_eq,
      .inr ⟨_, hp.finds m.batchSize_pos hlt hbatch hscan⟩⟩
  | exhausted hend =>
    exact ⟨Run.tiles_of_isTile hp.isTile hp.report_eq, .inl (hp.exhausts hpos hend)⟩

/-- A run that is never stopped ends, with its range exhausted or with a solution. Its batches are
the tiles of the range in exact arithmetic, in order and without a gap, and no operation on words
wraps. If the range is exhausted, there are as many reports as batch sizes go into it, rounded up,
and each is exact, the last one being the size of the range; if a solution is found, there is one
report for each whole batch before it. -/
theorem mine_tiles_range (machine : Machine) (s : Settings) (previousHash minerAddress : Bytes)
    (m : Miner) (hm : Miner.ofSettings machine s previousHash minerAddress = .ok m)
    (header target : Bytes)
    (hh : header.length = 140) (ht : 32 ≤ target.length) (range : NonceRange) (run : Run)
    (hrun : m.mine header target range none = run) :
    run.Tiles range s.batchSize.toNat ∧
      (run.Exhausts range s.batchSize.toNat ∨
        ∃ solution, run.Finds range s.batchSize.toNat solution) ∧
      (range.stop ≤ range.start → run.reports = #[] ∧ run.result = .ok .exhausted) := by
  obtain ⟨bound, hok, -⟩ := Miner.exists_checkAttempt hm hh ht
  obtain ⟨-, -, -, -, -, -, hsize⟩ := Miner.exists_ready_of_ofSettings hm
  obtain ⟨htiles, hend⟩ := m.mine_tiles range hok
  rw [hrun, hsize] at htiles hend
  refine ⟨htiles, hend, ?_⟩
  intro hempty
  have hnothing : run = (Progress.start range).ended (.ok .exhausted) := by
    rw [← hrun, Miner.mine, Engine.search_of_checkAttempt hok]
    exact m.walk_of_not_lt (UInt64.not_lt.mpr hempty)
  rw [hnothing]
  exact ⟨rfl, rfl⟩

/-- A range of two batches and a half up to the largest word, where the end of the last batch would
wrap. -/
theorem mine_tiles_range_highest :
    ∃ m run,
      Miner.ofSettings .single (.default .single) (.replicate 32 0) (.replicate 32 0) = .ok m ∧
      (List.replicate 140 (0 : UInt8)).length = 140 ∧
      32 ≤ (List.replicate 32 (0 : UInt8)).length ∧
      m.mine (.replicate 140 0) (.replicate 32 0) ⟨18446744073709301615, 18446744073709551615⟩
        none = run ∧
      run.Tiles ⟨18446744073709301615, 18446744073709551615⟩ 100000 ∧
      (run.Exhausts ⟨18446744073709301615, 18446744073709551615⟩ 100000 ∨
        ∃ solution, run.Finds ⟨18446744073709301615, 18446744073709551615⟩ 100000 solution) := by
  have hlength : 32 ≤ (List.replicate 32 (0 : UInt8)).length := by simp
  have hheader : (List.replicate 140 (0 : UInt8)).length = 140 := by simp
  obtain ⟨m, hm⟩ := Miner.exists_ofSettings_default hlength hlength
  obtain ⟨htiles, hend, -⟩ := mine_tiles_range .single (.default .single) _ _ m hm
    (.replicate 140 0) (.replicate 32 0) hheader hlength
    ⟨18446744073709301615, 18446744073709551615⟩ _ rfl
  exact ⟨m, _, hm, hheader, hlength, rfl, htiles, hend⟩

end Padwork
