import Padwork.Proofs.Mining.Ending
import Padwork.Proofs.Work.Verification

/-!
# A looser target loses nothing

The digest of a nonce does not depend on the target, and a digest that meets a target
meets each one that is no lower, the first 32 bytes read as a number. So a scan finds
under the looser target all that it finds under the tighter one, or something before
it, and so does a run, whatever its batches. Under the highest target each nonce is valid.
-/
namespace Padwork

/-- If there is a first solution, the second one is not behind it. -/
structure NoLater (second? first? : Option Solution) : Prop where
  exists_le : ∀ first, first? = some first →
    ∃ second, second? = some second ∧ second.nonce ≤ first.nonce
  eq_none : second? = none → first? = none

namespace Engine

variable {e : Engine} {header : Bytes} {tight loose bound digest : Bytes32} {start stop : Nat}
  {next last : UInt64} {solution : Solution}

section
variable (hle : ofBigEndian tight.toList ≤ ofBigEndian loose.toList)
include hle

theorem meets_of_le (h : meets digest tight = true) : meets digest loose = true := by
  rw [meets_iff] at h ⊢
  exact Nat.le_trans h hle

theorem Barren.tighten (h : e.Barren header loose start stop) :
    e.Barren header tight start stop := by
  intro nonce hstart hstop
  have hloose := h nonce hstart hstop
  rw [Bool.eq_false_iff] at hloose ⊢
  intro htight
  exact hloose (meets_of_le hle htight)

theorem exists_scan_le (h : e.scan header tight next last = some solution) :
    ∃ other, e.scan header loose next last = some other ∧ other.nonce ≤ solution.nonce := by
  have hlowest := scan_eq_some_iff.mp h
  cases hscan : e.scan header loose next last with
  | none =>
    have hbarren := (scan_eq_none_iff.mp hscan).tighten hle
    exact absurd hbarren hlowest.not_barren
  | some other =>
    refine ⟨other, rfl, ?_⟩
    rw [UInt64.le_iff_toNat_le]
    apply Nat.le_of_not_lt
    intro hlt
    -- then the looser target has passed over a nonce that meets it
    have hbarren := (scan_eq_some_iff.mp hscan).barren solution.nonce hlowest.start_le hlt
    have hmeets := meets_of_le hle hlowest.meets_bound
    rw [hlowest.digest_eq, hbarren] at hmeets
    cases hmeets

theorem scan_noLater (e : Engine) (header : Bytes) (next last : UInt64) :
    NoLater (e.scan header loose next last) (e.scan header tight next last) where
  exists_le _ h := exists_scan_le hle h
  eq_none h := by
    rw [scan_eq_none_iff] at h ⊢
    exact h.tighten hle

end

theorem scan_highest (e : Engine) (header : Bytes) (h : bound.toList = List.replicate 32 0xFF)
    (hlt : next < last) :
    e.scan header bound next last = some ⟨next, e.digest header next⟩ := by
  rw [scan, if_pos hlt]
  simp only [meets_highest h, if_true]

end Engine

open Engine Mining

/-- All that is valid under one target is valid under another, with the same digest. Searches and
runs that are never stopped find no less under the other target and find it no later, though their
batches may be of other sizes. -/
structure Engine.LosesNothing (e : Engine) (header tight loose : Bytes) : Prop where
  verify : ∀ nonce, ∃ digest before after, e.verify header nonce tight = .ok ⟨digest, before⟩ ∧
    e.verify header nonce loose = .ok ⟨digest, after⟩ ∧ (before = true → after = true)
  search : ∀ range, ∃ before? after?, e.search header tight range = .ok before? ∧
    e.search header loose range = .ok after? ∧ NoLater after? before?
  mine : ∀ first second : Miner, first.engine = e → second.engine = e → ∀ range,
    ∃ before? after?, (first.mine header tight range none).result = .ok (.ofScan before?) ∧
      (second.mine header loose range none).result = .ok (.ofScan after?) ∧ NoLater after? before?

/-- Each nonce is valid under the target, so the first one of a range is the solution. -/
structure Engine.AcceptsAll (e : Engine) (header target : Bytes) : Prop where
  verify : ∀ nonce, ∃ digest, e.verify header nonce target = .ok ⟨digest, true⟩
  search : ∀ range, range.start < range.stop →
    ∃ digest, e.search header target range = .ok (some ⟨range.start, digest⟩)
  mine : ∀ m : Miner, m.engine = e → ∀ range, range.start < range.stop →
    ∃ digest, (m.mine header target range none).result = .ok (.found ⟨range.start, digest⟩)

variable {e : Engine} {header tight loose target : Bytes} {low high bound : Bytes32}

theorem Engine.losesNothing_of_le (htight : e.checkAttempt header tight = .ok low)
    (hloose : e.checkAttempt header loose = .ok high)
    (hle : ofBigEndian low.toList ≤ ofBigEndian high.toList) :
    e.LosesNothing header tight loose where
  verify nonce := ⟨_, _, _, verify_of_checkAttempt htight nonce,
    verify_of_checkAttempt hloose nonce, meets_of_le hle⟩
  search range := ⟨_, _, search_of_checkAttempt htight range, search_of_checkAttempt hloose range,
    scan_noLater hle e header range.start range.stop⟩
  mine first second hfirst hsecond range := by
    have hresult := first.result_mine_none range (hfirst ▸ htight)
    have hresult' := second.result_mine_none range (hsecond ▸ hloose)
    rw [hfirst] at hresult
    rw [hsecond] at hresult'
    exact ⟨_, _, hresult, hresult', scan_noLater hle e header range.start range.stop⟩

theorem Engine.acceptsAll_of_highest (hok : e.checkAttempt header target = .ok bound)
    (hhighest : bound.toList = List.replicate 32 0xFF) : e.AcceptsAll header target where
  verify nonce := by
    rw [verify_of_checkAttempt hok, meets_highest hhighest]
    exact ⟨_, rfl⟩
  search range hlt := by
    rw [search_of_checkAttempt hok, scan_highest e header hhighest hlt]
    exact ⟨_, rfl⟩
  mine m hm range hlt := by
    rw [m.result_mine_none range (hm ▸ hok), hm, scan_highest e header hhighest hlt]
    exact ⟨_, rfl⟩

/-- With a template and a usable header, a target of which the first 32 bytes are no lower as a
number loses no proof, and under a target that starts with 32 bytes `FF` each nonce is a proof. -/
theorem looser_target_loses_nothing (e : Engine) (he : e.initialized = true) (header : Bytes)
    (hh : header.length = 140) :
    (∀ tight loose : Bytes, 32 ≤ tight.length → 32 ≤ loose.length →
      ofBigEndian (tight.take 32) ≤ ofBigEndian (loose.take 32) →
        e.LosesNothing header tight loose) ∧
      ∀ target : Bytes, target.take 32 = List.replicate 32 0xFF → e.AcceptsAll header target := by
  constructor
  · intro tight loose htight hloose hle
    obtain ⟨low, hlow, hlow_eq⟩ := exists_leading .target htight
    obtain ⟨high, hhigh, hhigh_eq⟩ := exists_leading .target hloose
    rw [← hlow_eq, ← hhigh_eq] at hle
    exact losesNothing_of_le (checkAttempt_of_leading he hh hlow)
      (checkAttempt_of_leading he hh hhigh) hle
  · intro target htarget
    have hlength := congrArg List.length htarget
    rw [List.length_take, List.length_replicate] at hlength
    obtain ⟨bound, hbound, hbound_eq⟩ := exists_leading .target (by omega : 32 ≤ target.length)
    exact acceptsAll_of_highest (checkAttempt_of_leading he hh hbound) (hbound_eq.trans htarget)

/-- Two targets of which the tighter one is higher in its last byte and behind byte 32. -/
theorem looser_target_loses_nothing_leading :
    (ready (.replicate 32 0) (.replicate 32 1) 256).initialized = true ∧
      (List.replicate 140 (0 : UInt8)).length = 140 ∧
      (ready (.replicate 32 0) (.replicate 32 1) 256).LosesNothing (.replicate 140 0)
        (List.replicate 31 0 ++ [0xFF, 0xFF]) (1 :: List.replicate 32 0) ∧
      (ready (.replicate 32 0) (.replicate 32 1) 256).AcceptsAll (.replicate 140 0)
        (List.replicate 32 0xFF ++ [0]) := by
  have hheader : (List.replicate 140 (0 : UInt8)).length = 140 := by simp
  have hle : ofBigEndian ((List.replicate 31 (0 : UInt8) ++ [0xFF, 0xFF]).take 32) ≤
      ofBigEndian (((1 : UInt8) :: List.replicate 32 0).take 32) := by decide
  obtain ⟨hloses, haccepts⟩ := looser_target_loses_nothing
    (ready (.replicate 32 0) (.replicate 32 1) 256) rfl (.replicate 140 0) hheader
  exact ⟨rfl, hheader, hloses _ _ (by simp) (by simp) hle, haccepts _ (by simp)⟩

end Padwork
