import Padwork.Proofs.Engine.Accepted
import Padwork.Proofs.Engine.Scan

/-!
# A search finds the first nonce that a check accepts

The scan behind a search makes and compares digests on its own. What it finds is still
the lowest nonce of its range that a check on the same engine accepts, with the digest
of this nonce, and it finds nothing only if a check refuses the whole range. So a range
may be cut anywhere and its parts searched one after the other.
-/
namespace Padwork
namespace Engine

/-- A check refuses each nonce from `start` on and below `stop`. -/
def RefusesAll (e : Engine) (header target : Bytes) (start stop : UInt64) : Prop :=
  ∀ nonce, start ≤ nonce → nonce < stop →
    ∃ digest, e.verify header nonce target = .ok ⟨digest, false⟩

/-- A check accepts the solution, and no nonce of the range before it. -/
structure IsFirst (e : Engine) (header target : Bytes) (range : NonceRange)
    (solution : Solution) : Prop where
  start_le : range.start ≤ solution.nonce
  lt_stop : solution.nonce < range.stop
  accepted : e.verify header solution.nonce target = .ok ⟨solution.digest, true⟩
  refused : e.RefusesAll header target range.start solution.nonce

variable {e : Engine} {header target : Bytes} {bound digest : Bytes32} {nonce : UInt64}
  {range : NonceRange} {solution : Solution}

/-! ## Checks in terms of digests -/

section
variable (hok : e.checkAttempt header target = .ok bound)
include hok

theorem verify_eq_accepted_iff : e.verify header nonce target = .ok ⟨digest, true⟩ ↔
    digest = e.digest header nonce ∧ meets digest bound = true := by
  rw [verify_of_checkAttempt hok, Except.ok.injEq, Verification.mk.injEq]
  constructor
  · rintro ⟨rfl, hmeets⟩
    exact ⟨rfl, hmeets⟩
  · rintro ⟨rfl, hmeets⟩
    exact ⟨rfl, hmeets⟩

theorem exists_verify_eq_refused_iff :
    (∃ digest, e.verify header nonce target = .ok ⟨digest, false⟩) ↔
      meets (e.digest header nonce) bound = false := by
  rw [verify_of_checkAttempt hok]
  constructor
  · rintro ⟨digest, h⟩
    exact congrArg Verification.valid (Except.ok.inj h)
  · intro h
    exact ⟨e.digest header nonce, by rw [h]⟩

theorem refusesAll_iff_barren {start stop : UInt64} :
    e.RefusesAll header target start stop ↔ e.Barren header bound start.toNat stop.toNat := by
  refine forall_congr' fun nonce => ?_
  rw [exists_verify_eq_refused_iff hok, UInt64.le_iff_toNat_le, UInt64.lt_iff_toNat_lt]

theorem isFirst_iff_lowest : e.IsFirst header target range solution ↔
    e.Lowest header bound range.start.toNat range.stop.toNat solution := by
  constructor
  · intro h
    obtain ⟨hdigest, hmeets⟩ := (verify_eq_accepted_iff hok).mp h.accepted
    exact ⟨UInt64.le_iff_toNat_le.mp h.start_le, UInt64.lt_iff_toNat_lt.mp h.lt_stop, hdigest,
      hmeets, (refusesAll_iff_barren hok).mp h.refused⟩
  · intro h
    exact ⟨UInt64.le_iff_toNat_le.mpr h.start_le, UInt64.lt_iff_toNat_lt.mpr h.lt_stop,
      (verify_eq_accepted_iff hok).mpr ⟨h.digest_eq, h.meets_bound⟩,
      (refusesAll_iff_barren hok).mpr h.barren⟩

end

/-! ## Ranges in two parts -/

theorem scan_append (e : Engine) (header : Bytes) (bound : Bytes32) {start middle stop : UInt64}
    (hfront : start ≤ middle) (hback : middle ≤ stop) :
    e.scan header bound start stop =
      (e.scan header bound start middle).or (e.scan header bound middle stop) := by
  rw [UInt64.le_iff_toNat_le] at hfront hback
  cases hs : e.scan header bound start middle with
  | some solution =>
    rw [Option.some_or, scan_eq_some_iff]
    exact (scan_eq_some_iff.mp hs).extend hback
  | none =>
    have hbarren := scan_eq_none_iff.mp hs
    rw [Option.none_or]
    cases hs' : e.scan header bound middle stop with
    | some solution =>
      rw [scan_eq_some_iff]
      exact (scan_eq_some_iff.mp hs').prepend hbarren hfront
    | none =>
      rw [scan_eq_none_iff]
      exact hbarren.append (scan_eq_none_iff.mp hs')

end Engine

open Engine

/-- With a template, a usable header and a usable target, a search is never refused. It finds a
solution if and only if this is the first of its range that a check accepts, and nothing if and only
if a check refuses the whole range. To search a range is to search its front, and its back only when
the front has nothing. -/
theorem search_finds_first (e : Engine) (he : e.initialized = true) (header target : Bytes)
    (hh : header.length = 140) (ht : 32 ≤ target.length) :
    (∀ range, ∃ found?, e.search header target range = .ok found? ∧
      (∀ solution, found? = some solution ↔ e.IsFirst header target range solution) ∧
      (found? = none ↔ e.RefusesAll header target range.start range.stop) ∧
      (range.stop ≤ range.start → found? = none)) ∧
      ∀ start middle stop, start ≤ middle → middle ≤ stop →
        e.search header target ⟨start, stop⟩ = (do
          match ← e.search header target ⟨start, middle⟩ with
          | some solution => return some solution
          | none => e.search header target ⟨middle, stop⟩) := by
  obtain ⟨bound, hbound, -⟩ := exists_leading .target ht
  have hok := checkAttempt_of_leading he hh hbound
  constructor
  · intro range
    refine ⟨_, search_of_checkAttempt hok range, ?_, ?_, ?_⟩
    · intro solution
      rw [scan_eq_some_iff, isFirst_iff_lowest hok]
    · rw [scan_eq_none_iff, refusesAll_iff_barren hok]
    · intro hempty
      rw [scan_eq_none_iff]
      exact .of_le (UInt64.le_iff_toNat_le.mp hempty)
  · intro start middle stop hfront hback
    simp only [search_of_checkAttempt hok, e.scan_append header bound hfront hback]
    cases e.scan header bound start middle <;> rfl

/-- A range at the end of the words, cut before its last nonce. -/
theorem search_finds_first_highest :
    ∃ (e : Engine) (header target : Bytes), e = ready (.replicate 32 0) (.replicate 32 1) 256 ∧
      header = .replicate 140 0 ∧ target = .replicate 33 0 ∧
      e.initialized = true ∧ header.length = 140 ∧ 32 ≤ target.length ∧
      (18446744073709551600 : UInt64) ≤ 18446744073709551614 ∧
      (18446744073709551614 : UInt64) ≤ 18446744073709551615 ∧
      (∃ found?, e.search header target ⟨18446744073709551600, 18446744073709551615⟩ =
          .ok found? ∧
        (found? = none ↔
          e.RefusesAll header target 18446744073709551600 18446744073709551615)) ∧
      e.search header target ⟨18446744073709551600, 18446744073709551615⟩ = (do
        match ← e.search header target ⟨18446744073709551600, 18446744073709551614⟩ with
        | some solution => return some solution
        | none => e.search header target ⟨18446744073709551614, 18446744073709551615⟩) := by
  have hheader : (List.replicate 140 (0 : UInt8)).length = 140 := by simp
  have htarget : 32 ≤ (List.replicate 33 (0 : UInt8)).length := by simp
  have hfront : (18446744073709551600 : UInt64) ≤ 18446744073709551614 := by decide
  have hback : (18446744073709551614 : UInt64) ≤ 18446744073709551615 := by decide
  obtain ⟨hsearch, happend⟩ := search_finds_first (ready (.replicate 32 0) (.replicate 32 1) 256)
    rfl (.replicate 140 0) (.replicate 33 0) hheader htarget
  obtain ⟨found?, hfound, -, hnone, -⟩ := hsearch ⟨18446744073709551600, 18446744073709551615⟩
  exact ⟨_, _, _, rfl, rfl, rfl, rfl, hheader, htarget, hfront, hback, ⟨found?, hfound, hnone⟩,
    happend _ _ _ hfront hback⟩

end Padwork
