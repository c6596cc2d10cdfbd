import Mathlib.Data.List.FinRange
import Padwork.Proofs.Engine.Accepted

/-!
# Building a scratchpad step by step

To prepare a template is to lower the flag of the engine, to clear the scratchpad, to write
its chunks and to raise the flag again. The chunks may be written in any order, by any
number of workers: the engine comes out the same. As long as the flag is down each attempt
is refused, and it is raised when nothing of the old scratchpad is left.
-/
namespace Padwork
namespace Engine
open Parameters

variable {e : Engine} {seed hash address : Bytes32} {previousHash minerAddress : Bytes}
  {steps front back : List BuildStep} {order : List (Fin chunkCount)}

theorem initialized_apply {step : BuildStep} (hstep : step ≠ .raise)
    (he : e.initialized = false) : (step.apply seed e).initialized = false := by
  cases step with
  | lower => rfl
  | clear => exact he
  | write i => exact he
  | raise => exact absurd rfl hstep

theorem initialized_after (hsteps : .raise ∉ steps) (he : e.initialized = false) :
    (e.after seed steps).initialized = false := by
  induction steps generalizing e with
  | nil => exact he
  | cons step steps ih =>
    rw [List.mem_cons, not_or] at hsteps
    exact ih hsteps.2 (initialized_apply (Ne.symm hsteps.1) he)

theorem raise_notMem_fillSteps (order : List (Fin chunkCount)) : .raise ∉ fillSteps order := by
  simp [fillSteps]

/-- Between the first step and the last one the flag is down. -/
theorem initialized_after_of_append (h : buildSteps order = front ++ back) (hfront : front ≠ [])
    (hback : back ≠ []) : (e.after seed front).initialized = false := by
  obtain ⟨step, rest, rfl⟩ := List.exists_cons_of_ne_nil hfront
  obtain ⟨rfl, hrest⟩ := List.cons.inj h
  have hdrop : (fillSteps order ++ [BuildStep.raise]).dropLast = (rest ++ back).dropLast :=
    congrArg List.dropLast hrest
  rw [List.dropLast_concat, List.dropLast_append_of_ne_nil hback] at hdrop
  have hraise : BuildStep.raise ∉ rest := by
    intro hmem
    apply raise_notMem_fillSteps order
    rw [hdrop]
    exact List.mem_append_left _ hmem
  rw [after_cons]
  exact initialized_after hraise rfl

/-- The flag is up only when the scratchpad is the complete table of a template. -/
def IsHonest (e : Engine) : Prop :=
  e.initialized = true →
    ∃ hash address : Bytes32, e.scratchpad = .ofSeed (deriveSeed hash address)

/-- An engine stays honest at each step, and becomes honest with the first one. -/
theorem isHonest_after (horder : ∀ i, i ∈ order) (h : buildSteps order = front ++ back)
    (he : front = [] → e.IsHonest) : (e.after (deriveSeed hash address) front).IsHonest := by
  by_cases hfront : front = []
  · rw [hfront]
    exact he hfront
  · by_cases hback : back = []
    · rw [hback, List.append_nil] at h
      intro _
      refine ⟨hash, address, ?_⟩
      rw [← h, after_buildSteps horder]
    · intro hup
      rw [initialized_after_of_append h hfront hback] at hup
      cases hup

theorem verify_of_not_initialized (he : e.initialized = false) (header : Bytes) (nonce : UInt64)
    (target : Bytes) : e.verify header nonce target = .error .notInitialized := by
  simp only [verify, checkAttempt, he]
  rfl

end Engine

open Engine Parameters

/-- For an accepted template, steps that write each chunk once leave the same engine in any order,
which is the one that preparing the template leaves. At no step between is the flag up without the
complete table of a template, and as long as it is down each attempt is refused. -/
theorem build_any_order (e : Engine) (previousHash minerAddress : Bytes) (hash address : Bytes32)
    (hp : leading .previousHash previousHash = .ok hash)
    (ha : leading .minerAddress minerAddress = .ok address) (order : List (Fin chunkCount))
    (horder : order.Perm (List.finRange chunkCount)) :
    e.after (deriveSeed hash address) (buildSteps order) =
        e.after (deriveSeed hash address) (buildSteps (List.finRange chunkCount)) ∧
      (prepare previousHash minerAddress).run e =
        .ok () (e.after (deriveSeed hash address) (buildSteps order)) ∧
      ∀ front back, buildSteps order = front ++ back →
        ((front = [] → e.IsHonest) → (e.after (deriveSeed hash address) front).IsHonest) ∧
          (front ≠ [] → back ≠ [] → ∀ header nonce target,
            (e.after (deriveSeed hash address) front).verify header nonce target =
              .error .notInitialized) := by
  have hall (i : Fin chunkCount) : i ∈ order := horder.mem_iff.mpr (List.mem_finRange i)
  have hsame : e.after (deriveSeed hash address) (buildSteps order) =
      e.after (deriveSeed hash address) (buildSteps (List.finRange chunkCount)) := by
    rw [after_buildSteps hall, after_buildSteps List.mem_finRange]
  refine ⟨hsame, ?_, ?_⟩
  · rw [prepare_eq_after hp ha, hsame]
  · intro front back hsteps
    refine ⟨isHonest_after hall hsteps, ?_⟩
    intro hfront hback
    exact verify_of_not_initialized (initialized_after_of_append hsteps hfront hback)

/-- Another template on an engine that is ready for one, with the last chunk written first. -/
theorem build_any_order_backwards :
    leading .previousHash (List.replicate 40 3) = .ok (.replicate 32 3) ∧
      leading .minerAddress (List.replicate 32 4) = .ok (.replicate 32 4) ∧
      (List.finRange chunkCount).reverse.Perm (List.finRange chunkCount) ∧
      (prepare (List.replicate 40 3) (List.replicate 32 4)).run
          (ready (.replicate 32 1) (.replicate 32 2) 300) =
        .ok () ((ready (.replicate 32 1) (.replicate 32 2) 300).after
          (deriveSeed (.replicate 32 3) (.replicate 32 4))
          (buildSteps (List.finRange chunkCount).reverse)) := by
  have hp : leading .previousHash (List.replicate 40 3) = .ok (.replicate 32 3) := rfl
  have ha : leading .minerAddress (List.replicate 32 4) = .ok (.replicate 32 4) := rfl
  have horder := List.reverse_perm (List.finRange chunkCount)
  exact ⟨hp, ha, horder, (build_any_order (ready (.replicate 32 1) (.replicate 32 2) 300) _ _ _ _
    hp ha _ horder).2.1⟩

end Padwork
