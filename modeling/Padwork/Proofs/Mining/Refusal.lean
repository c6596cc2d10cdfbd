import Padwork.Proofs.Mining.Construction
import Padwork.Proofs.Mining.Ending

/-!
# Refused runs

A run looks at its header and its target once, before anything else, and refuses them
as a single check on the same engine does. Each batch looks at them again, but what has
passed once passes again. So a run that fails has searched and reported nothing, whatever
its range and its signal.
-/
namespace Padwork
namespace Engine

variable {e : Engine} {header target : Bytes} {error : Error} {nonce : UInt64}

theorem verify_eq_error_iff :
    e.verify header nonce target = .error error ↔ e.checkAttempt header target = .error error := by
  cases hok : e.checkAttempt header target with
  | ok bound =>
    rw [verify_of_checkAttempt hok]
    exact ⟨nofun, nofun⟩
  | error other =>
    have hverify : e.verify header nonce target = .error other := by
      simp only [verify, hok]
      rfl
    rw [hverify, Except.error.injEq, Except.error.injEq]

theorem checkAttempt_ne_notInitialized (he : e.initialized = true) (header target : Bytes) :
    e.checkAttempt header target ≠ .error .notInitialized := by
  intro h
  have hfault := errorOf?_checkAttempt_of_initialized he header target
  rw [h] at hfault
  exact attemptFault?_ne_notInitialized header target hfault.symm

end Engine

open Engine Mining

namespace Miner

variable {header target : Bytes} {range : NonceRange} {signal : Signal}

theorem result_mine_eq_error_iff (m : Miner) {error : Mining.Error} :
    (m.mine header target range signal).result = .error error ↔
      ∃ cause, m.engine.checkAttempt header target = .error cause ∧ error = .engine cause := by
  cases hok : m.engine.checkAttempt header target with
  | ok bound =>
    obtain ⟨outcome, hresult, -⟩ := m.mine_spec range signal hok
    rw [hresult]
    exact ⟨nofun, nofun⟩
  | error cause =>
    rw [m.mine_of_refused hok range signal]
    constructor
    · rintro ⟨⟩
      exact ⟨cause, rfl, rfl⟩
    · rintro ⟨_, ⟨⟩, rfl⟩
      rfl

end Miner

/-- A run fails if and only if a single check on the miner's engine refuses the same header and
target, and with the same error, which is never that the engine is idle. It has then neither
searched nor reported anything, whatever its range and its signal. If the check does not refuse
them, no batch of the run fails. -/
theorem mine_refuses_first (machine : Machine) (s : Settings) (previousHash minerAddress : Bytes)
    (m : Miner) (hm : Miner.ofSettings machine s previousHash minerAddress = .ok m)
    (header target : Bytes)
    (range : NonceRange) (signal : Signal) (run : Run)
    (hrun : m.mine header target range signal = run) :
    (∀ nonce error, run.result = .error error ↔
      ∃ cause, m.engine.verify header nonce target = .error cause ∧ error = .engine cause) ∧
      (∀ error, run.result = .error error →
        error ≠ .engine .notInitialized ∧ run.batches = #[] ∧ run.reports = #[]) ∧
      ∀ nonce verification, m.engine.verify header nonce target = .ok verification →
        (∃ outcome, run.result = .ok outcome) ∧
          ∀ batch ∈ run.batches, ∃ found?, m.engine.search header target batch = .ok found? := by
  subst hrun
  refine ⟨?_, ?_, ?_⟩
  · intro nonce error
    simp only [verify_eq_error_iff]
    exact m.result_mine_eq_error_iff
  · intro error hresult
    obtain ⟨cause, hcause, rfl⟩ := m.result_mine_eq_error_iff.mp hresult
    rw [m.mine_of_refused hcause range signal]
    refine ⟨?_, rfl, rfl⟩
    rintro ⟨⟩
    exact checkAttempt_ne_notInitialized (Miner.initialized_of_ofSettings hm) header target hcause
  · intro nonce verification hverify
    cases hok : m.engine.checkAttempt header target with
    | error cause =>
      rw [verify_eq_error_iff.mpr hok] at hverify
      cases hverify
    | ok bound =>
      obtain ⟨outcome, hresult, -⟩ := m.mine_spec range signal hok
      exact ⟨⟨outcome, hresult⟩, fun batch _ => ⟨_, search_of_checkAttempt hok batch⟩⟩

/-- A header that is too short, with nothing to search and the signal up from the start. -/
theorem mine_refuses_first_header :
    ∃ m run,
      Miner.ofSettings .single (.default .single) (.replicate 32 0) (.replicate 32 1) = .ok m ∧
      m.mine (.replicate 100 0) (.replicate 32 255) ⟨0, 0⟩ (some 0) = run ∧
      run.result = .error (.engine (.headerLength 100)) ∧ run.reports = #[] := by
  have hlength (b : UInt8) : 32 ≤ (List.replicate 32 b).length := by simp
  obtain ⟨m, hm⟩ := Miner.exists_ofSettings_default (hlength 0) (hlength 1)
  obtain ⟨-, hash, address, -, -, hengine, -⟩ := Miner.exists_ready_of_ofSettings hm
  have hrefused : m.engine.verify (.replicate 100 0) 0 (.replicate 32 255) =
      .error (.headerLength 100) := by
    rw [hengine, verify_eq_error_iff]
    rfl
  obtain ⟨hfails, hnothing, -⟩ := mine_refuses_first .single (.default .single) _ _ m hm
    (.replicate 100 0) (.replicate 32 255) ⟨0, 0⟩ (some 0) _ rfl
  have hresult := (hfails 0 (.engine (.headerLength 100))).mpr ⟨_, hrefused, rfl⟩
  exact ⟨m, _, hm, rfl, hresult, (hnothing _ hresult).2.2⟩

end Padwork
