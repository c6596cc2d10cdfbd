import Padwork.Engine.Basic
import Padwork.Proofs.Scratchpad.Contents

/-!
# Accepted calls

A call with usable arguments is answered. A template gives the engine that is ready
for it, an attempt gets the digest of its nonce, and a search gets what the scan of
its range gives.
-/
namespace Padwork
namespace Engine
open Parameters

/-- The engine for a template. -/
def ready (hash address : Bytes32) (rounds : UInt64) : Engine :=
  ⟨.ofSeed (deriveSeed hash address), true, rounds⟩

theorem leading_eq_ok_iff {input : Input} {bytes : Bytes} {head : Bytes32} :
    leading input bytes = .ok head ↔ Bytes32.leading? bytes = some head := by
  unfold leading
  cases Bytes32.leading? bytes <;> simp

/-- An input of at least 32 bytes is accepted, and its first 32 bytes are used. -/
theorem exists_leading (input : Input) {bytes : Bytes} (h : 32 ≤ bytes.length) :
    ∃ head, leading input bytes = .ok head ∧ head.toList = bytes.take 32 := by
  cases hhead : Bytes32.leading? bytes with
  | none =>
    rw [Bytes32.leading?_eq_none_iff] at hhead
    omega
  | some head =>
    exact ⟨head, leading_eq_ok_iff.mpr hhead, Bytes32.toList_of_leading? hhead⟩

theorem roundsAllowed_iff {rounds : UInt64} :
    RoundsAllowed rounds ↔ 256 ≤ rounds.toNat ∧ rounds.toNat ≤ 2048 :=
  and_congr UInt64.le_iff_toNat_le UInt64.le_iff_toNat_le

theorem checkRounds_of_allowed {rounds : UInt64} (h : RoundsAllowed rounds) :
    checkRounds rounds = .ok () := if_pos h

theorem setRounds_of_allowed {rounds : UInt64} (h : RoundsAllowed rounds) (e : Engine) :
    (setRounds rounds).run e = .ok () { e with rounds } := by
  simp only [setRounds, checkRounds_of_allowed h]
  rfl

/-! ## Building a scratchpad -/

def after (e : Engine) (seed : Bytes32) (steps : List BuildStep) : Engine :=
  steps.foldl (BuildStep.apply seed) e

theorem after_cons (e : Engine) (seed : Bytes32) (step : BuildStep) (steps : List BuildStep) :
    e.after seed (step :: steps) = (step.apply seed e).after seed steps := rfl

theorem after_append (e : Engine) (seed : Bytes32) (front back : List BuildStep) :
    e.after seed (front ++ back) = (e.after seed front).after seed back := List.foldl_append

theorem run_build (seed : Bytes32) (steps : List BuildStep) (e : Engine) :
    (build seed steps).run e = .ok () (e.after seed steps) := by
  induction steps generalizing e with
  | nil => rfl
  | cons step steps ih => exact ih _

theorem after_map_write (e : Engine) (seed : Bytes32) (order : List (Fin chunkCount)) :
    e.after seed (order.map .write) =
      { e with scratchpad := order.foldl (·.write seed ·) e.scratchpad } := by
  induction order generalizing e with
  | nil => rfl
  | cons i order ih => exact ih _

/-- Writes that leave no chunk out build the seed's table, in any order and on any engine. -/
theorem after_buildSteps {order : List (Fin chunkCount)} (h : ∀ i, i ∈ order) (e : Engine)
    (seed : Bytes32) : e.after seed (buildSteps order) = ⟨.ofSeed seed, true, e.rounds⟩ := by
  rw [buildSteps, fillSteps, List.cons_append, after_cons, after_cons, after_append,
    after_map_write, Scratchpad.foldl_write_eq_ofSeed _ seed h]
  rfl

/-- To prepare a template is to take these steps, the chunks in the order of their indices. -/
theorem prepare_eq_after {previousHash minerAddress : Bytes} {hash address : Bytes32}
    (hp : leading .previousHash previousHash = .ok hash)
    (ha : leading .minerAddress minerAddress = .ok address) (e : Engine) :
    (prepare previousHash minerAddress).run e =
      .ok () (e.after (deriveSeed hash address) (buildSteps (List.finRange chunkCount))) := by
  simp only [prepare, hp, ha, ofExcept, pure_bind, run_build]

/-- Preparing an engine makes it ready for the template, whatever it was before. Only its rounds
stay. -/
theorem prepare_of_leading {previousHash minerAddress : Bytes} {hash address : Bytes32}
    (hp : leading .previousHash previousHash = .ok hash)
    (ha : leading .minerAddress minerAddress = .ok address) (e : Engine) :
    (prepare previousHash minerAddress).run e = .ok () (ready hash address e.rounds) := by
  rw [prepare_eq_after hp ha, after_buildSteps List.mem_finRange, ready]

theorem forTemplate_of_leading {previousHash minerAddress : Bytes} {hash address : Bytes32}
    {rounds : UInt64} (hr : RoundsAllowed rounds)
    (hp : leading .previousHash previousHash = .ok hash)
    (ha : leading .minerAddress minerAddress = .ok address) :
    forTemplate previousHash minerAddress rounds = .ok (ready hash address rounds) := by
  simp only [forTemplate, checkRounds_of_allowed hr, hp, ha, prepare_of_leading hp ha]
  rfl

theorem checkAttempt_of_leading {e : Engine} {header target : Bytes} {bound : Bytes32}
    (he : e.initialized = true) (hh : header.length = headerSize)
    (ht : leading .target target = .ok bound) : e.checkAttempt header target = .ok bound := by
  simp [checkAttempt, he, hh, ht]

theorem verify_of_checkAttempt {e : Engine} {header target : Bytes} {bound : Bytes32}
    (h : e.checkAttempt header target = .ok bound) (nonce : UInt64) :
    e.verify header nonce target =
      .ok ⟨e.digest header nonce, meets (e.digest header nonce) bound⟩ := by
  simp only [verify, h]
  rfl

theorem search_of_checkAttempt {e : Engine} {header target : Bytes} {bound : Bytes32}
    (h : e.checkAttempt header target = .ok bound) (range : NonceRange) :
    e.search header target range = .ok (e.scan header bound range.start range.stop) := by
  simp only [search, h]
  rfl

end Engine

open Engine Parameters

variable {previousHash minerAddress : Bytes} {hash address : Bytes32} {rounds : UInt64}

theorem verify_eq_verify_ready (hr : RoundsAllowed rounds)
    (hp : leading .previousHash previousHash = .ok hash)
    (ha : leading .minerAddress minerAddress = .ok address) (header : Bytes) (nonce : UInt64)
    (target : Bytes) :
    verify previousHash minerAddress rounds header nonce target =
      (ready hash address rounds).verify header nonce target := by
  simp only [verify, forTemplate_of_leading hr hp ha]
  rfl

theorem verify_of_leading (hr : RoundsAllowed rounds)
    (hp : leading .previousHash previousHash = .ok hash)
    (ha : leading .minerAddress minerAddress = .ok address)
    {header target : Bytes} {bound : Bytes32} (hh : header.length = headerSize)
    (ht : leading .target target = .ok bound) (nonce : UInt64) :
    verify previousHash minerAddress rounds header nonce target =
      .ok ⟨(ready hash address rounds).digest header nonce,
        meets ((ready hash address rounds).digest header nonce) bound⟩ := by
  rw [verify_eq_verify_ready hr hp ha]
  exact verify_of_checkAttempt (checkAttempt_of_leading rfl hh ht) nonce

end Padwork
