import Mathlib.Data.List.Induction
import Padwork.Proofs.Engine.Refusal

/-!
# The history of an engine

What a long-lived engine is depends on two things of its history: the number of rounds
that was accepted last, and the template that was prepared last, both since it was
made. Each call keeps this. So nothing is left of earlier templates, earlier numbers
of rounds and refused calls, and the engine answers as one that is made for a single
check.
-/
namespace Padwork
open Parameters

/-- The bytes of the table for a template: the chunk with number `i` is the hash of the seed and
`i`, and any word selects the chunk with its remainder. -/
structure Scratchpad.IsTableOf (p : Scratchpad) (previousHash minerAddress : Bytes) : Prop where
  length_eq : p.bytes.length = 2097152
  block_eq : ∃ hash address : Bytes32,
    hash.toList = previousHash.take 32 ∧ address.toList = minerAddress.take 32 ∧
      ∀ i : Fin 65536, (p.bytes.drop (32 * i.val)).take 32 =
        (Sha3.hash ((deriveSeed hash address).toList ++ le64 i.val)).toList
  chunk_eq : ∀ word : UInt64,
    (p.chunk word).toList = (p.bytes.drop (32 * (word.toNat % 65536))).take 32

theorem Scratchpad.isTableOf_ofSeed {previousHash minerAddress : Bytes} {hash address : Bytes32}
    (hp : hash.toList = previousHash.take 32) (ha : address.toList = minerAddress.take 32) :
    (ofSeed (deriveSeed hash address)).IsTableOf previousHash minerAddress where
  length_eq := length_bytes _
  block_eq := ⟨hash, address, hp, ha, take_drop_bytes_ofSeed _⟩
  chunk_eq := toList_chunk _

namespace Engine

/-- The calls with their replies, from the last one back to the first. -/
def history (e : Engine) : List Call → List (Call × Reply)
  | [] => []
  | call :: later => (e.perform call).1.history later ++ [(call, (e.perform call).2)]

theorem history_append_singleton (e : Engine) (calls : List Call) (call : Call) :
    e.history (calls ++ [call]) =
      (call, ((e.run calls).perform call).2) :: e.history calls := by
  induction calls generalizing e with
  | nil => rfl
  | cons first calls ih =>
    rw [List.cons_append, history, ih, history, List.cons_append]
    rfl

theorem perform_prepare {previousHash minerAddress : Bytes} {hash address : Bytes32}
    (hp : leading .previousHash previousHash = .ok hash)
    (ha : leading .minerAddress minerAddress = .ok address) (e : Engine) :
    e.perform (.prepare previousHash minerAddress) = (ready hash address e.rounds, .done) := by
  simp only [perform, change, prepare_of_leading hp ha]

/-- The number of rounds that was accepted last since the engine was made. -/
def acceptedRounds : List (Call × Reply) → UInt64
  | [] => 512
  | (.fresh, _) :: _ => 512
  | (.forTemplate _ _ rounds, .done) :: _ => rounds
  | (.setRounds rounds, .done) :: _ => rounds
  | _ :: earlier => acceptedRounds earlier

/-- The template that was prepared last since the engine was made, if there is one. -/
def preparedTemplate? : List (Call × Reply) → Option (Bytes × Bytes)
  | [] => none
  | (.fresh, _) :: _ => none
  | (.forTemplate previousHash minerAddress _, .done) :: _ => some (previousHash, minerAddress)
  | (.prepare previousHash minerAddress, .done) :: _ => some (previousHash, minerAddress)
  | _ :: earlier => preparedTemplate? earlier

/-- The engine is a fresh one but for its rounds, or the one that is ready for a template. -/
def IsFor (e : Engine) (rounds : UInt64) : Option (Bytes × Bytes) → Prop
  | none => e = { fresh with rounds }
  | some (previousHash, minerAddress) => ∃ hash address,
    leading .previousHash previousHash = .ok hash ∧
      leading .minerAddress minerAddress = .ok address ∧ e = ready hash address rounds

/-- The engine is what the calls before have made it. -/
structure Follows (e : Engine) (earlier : List (Call × Reply)) : Prop where
  allowed : RoundsAllowed (acceptedRounds earlier)
  isFor : e.IsFor (acceptedRounds earlier) (preparedTemplate? earlier)

variable {e : Engine} {earlier : List (Call × Reply)} {rounds : UInt64}
  {template? : Option (Bytes × Bytes)}

theorem follows_fresh : fresh.Follows [] := ⟨by decide, rfl⟩

theorem IsFor.rounds_eq (h : e.IsFor rounds template?) : e.rounds = rounds := by
  cases template? with
  | none => rw [h]
  | some template =>
    obtain ⟨hash, address, -, -, rfl⟩ := h
    rfl

theorem IsFor.setRounds (h : e.IsFor rounds template?) (other : UInt64) :
    { e with rounds := other }.IsFor other template? := by
  cases template? with
  | none => rw [h]; rfl
  | some template =>
    obtain ⟨hash, address, hp, ha, rfl⟩ := h
    exact ⟨hash, address, hp, ha, rfl⟩

theorem IsFor.unique {other : Engine} (h : e.IsFor rounds template?)
    (hother : other.IsFor rounds template?) : e = other := by
  cases template? with
  | none => rw [h, hother]
  | some template =>
    obtain ⟨hash, address, hp, ha, rfl⟩ := h
    obtain ⟨hash', address', hp', ha', rfl⟩ := hother
    rw [Except.ok.inj (hp.symm.trans hp'), Except.ok.inj (ha.symm.trans ha')]

/-- A refused call leaves no trace. -/
theorem Follows.refused {call : Call} {error : Error} (h : e.Follows earlier)
    (hfault : call.fault? e = some error) : e.Follows ((call, .refused error) :: earlier) := by
  cases call with
  | fresh => cases hfault
  | forTemplate previousHash minerAddress rounds => exact ⟨h.allowed, h.isFor⟩
  | setRounds rounds => exact ⟨h.allowed, h.isFor⟩
  | prepare previousHash minerAddress => exact ⟨h.allowed, h.isFor⟩
  | verify header nonce target => exact ⟨h.allowed, h.isFor⟩
  | search header target range => exact ⟨h.allowed, h.isFor⟩

theorem Follows.accepted {call : Call} (h : e.Follows earlier) (hfault : call.fault? e = none) :
    (e.perform call).1.Follows ((call, (e.perform call).2) :: earlier) := by
  cases call with
  | fresh => exact ⟨follows_fresh.allowed, follows_fresh.isFor⟩
  | forTemplate previousHash minerAddress rounds =>
    obtain ⟨hrounds, htemplate⟩ := Option.or_eq_none_iff.mp hfault
    have hallowed := roundsFault?_eq_none_iff.mp hrounds
    obtain ⟨hash, address, hp, ha⟩ := exists_leading_of_templateFault? htemplate
    rw [Engine.perform, forTemplate_of_leading hallowed hp ha]
    exact ⟨hallowed, hash, address, hp, ha, rfl⟩
  | setRounds rounds =>
    have hallowed := roundsFault?_eq_none_iff.mp hfault
    rw [Engine.perform, change, setRounds_of_allowed hallowed]
    exact ⟨hallowed, h.isFor.setRounds rounds⟩
  | prepare previousHash minerAddress =>
    obtain ⟨hash, address, hp, ha⟩ := exists_leading_of_templateFault? hfault
    rw [Engine.perform, change, prepare_of_leading hp ha, h.isFor.rounds_eq]
    exact ⟨h.allowed, hash, address, hp, ha, rfl⟩
  | verify header nonce target => exact ⟨h.allowed, h.isFor⟩
  | search header target range => exact ⟨h.allowed, h.isFor⟩

/-- Each call keeps what an engine is by its history. -/
theorem Follows.perform (h : e.Follows earlier) (call : Call) :
    (e.perform call).1.Follows ((call, (e.perform call).2) :: earlier) := by
  cases hfault : call.fault? e with
  | none => exact h.accepted hfault
  | some error =>
    rw [perform_of_fault hfault]
    exact h.refused hfault

theorem follows_run (calls : List Call) : (fresh.run calls).Follows (fresh.history calls) := by
  -- a history starts with the last call, so this is the one that is taken off
  induction calls using List.reverseRecOn with
  | nil => exact follows_fresh
  | append_singleton calls call ih =>
    rw [run_append, history_append_singleton]
    exact ih.perform call

/-- What can be seen of an engine that the calls before have made. -/
structure Reflects (e : Engine) (earlier : List (Call × Reply)) : Prop where
  rounds_bounds : 256 ≤ e.rounds.toNat ∧ e.rounds.toNat ≤ 2048
  rounds_eq : e.rounds = acceptedRounds earlier
  initialized_iff : e.initialized = true ↔ (preparedTemplate? earlier).isSome = true
  eq_zero : e.initialized = false → ∀ byte ∈ e.scratchpad.bytes, byte = 0
  isTableOf : ∀ previousHash minerAddress,
    preparedTemplate? earlier = some (previousHash, minerAddress) →
      e.scratchpad.IsTableOf previousHash minerAddress

theorem IsFor.initialized_iff (h : e.IsFor rounds template?) :
    e.initialized = true ↔ template?.isSome = true := by
  cases template? with
  | none =>
    have he : e = { fresh with rounds } := h
    simp [he, fresh]
  | some template =>
    obtain ⟨hash, address, -, -, rfl⟩ := h
    exact ⟨fun _ => rfl, fun _ => rfl⟩

theorem IsFor.eq_zero (h : e.IsFor rounds template?) (hidle : e.initialized = false) :
    ∀ byte ∈ e.scratchpad.bytes, byte = 0 := by
  cases template? with
  | none =>
    have he : e = { fresh with rounds } := h
    have hpad : fresh.scratchpad.bytes = List.replicate scratchpadSize 0 := Scratchpad.bytes_zeroed
    intro byte hbyte
    rw [he, hpad] at hbyte
    exact List.eq_of_mem_replicate hbyte
  | some template =>
    rw [h.initialized_iff.mpr rfl] at hidle
    cases hidle

theorem IsFor.isTableOf {previousHash minerAddress : Bytes}
    (h : e.IsFor rounds (some (previousHash, minerAddress))) :
    e.scratchpad.IsTableOf previousHash minerAddress := by
  obtain ⟨hash, address, hp, ha, rfl⟩ := h
  exact Scratchpad.isTableOf_ofSeed (Bytes32.toList_of_leading? (leading_eq_ok_iff.mp hp))
    (Bytes32.toList_of_leading? (leading_eq_ok_iff.mp ha))

theorem Follows.reflects (h : e.Follows earlier) : e.Reflects earlier where
  rounds_bounds := by
    rw [h.isFor.rounds_eq]
    exact roundsAllowed_iff.mp h.allowed
  rounds_eq := h.isFor.rounds_eq
  initialized_iff := h.isFor.initialized_iff
  eq_zero := h.isFor.eq_zero
  isTableOf previousHash minerAddress htemplate := by
    have hfor := h.isFor
    rw [htemplate] at hfor
    exact hfor.isTableOf

/-- After any calls the engine has the rounds that were accepted last, it is initialized when a
template has been prepared, and its scratchpad is the table for the template that was prepared
last, or zero. Calls that agree in these two things leave the same engine. -/
theorem run_reflects (calls : List Call) :
    (fresh.run calls).Reflects (fresh.history calls) ∧
      ∀ others : List Call,
        acceptedRounds (fresh.history others) = acceptedRounds (fresh.history calls) →
          preparedTemplate? (fresh.history others) = preparedTemplate? (fresh.history calls) →
            fresh.run others = fresh.run calls := by
  have hfollows := follows_run calls
  refine ⟨hfollows.reflects, ?_⟩
  intro others hrounds htemplate
  have hothers := (follows_run others).isFor
  rw [hrounds, htemplate] at hothers
  exact hothers.unique hfollows.isFor

end Engine

open Engine

/-- After any calls, an engine checks a nonce as a single check does that is given the template
that was prepared last and the rounds that were accepted last. -/
theorem verify_run (calls : List Call) (previousHash minerAddress : Bytes) (rounds : UInt64)
    (htemplate : preparedTemplate? (fresh.history calls) = some (previousHash, minerAddress))
    (hrounds : acceptedRounds (fresh.history calls) = rounds) (header : Bytes) (nonce : UInt64)
    (target : Bytes) :
    (fresh.run calls).verify header nonce target =
      verify previousHash minerAddress rounds header nonce target := by
  obtain ⟨hallowed, hfor⟩ := follows_run calls
  rw [htemplate, hrounds] at hfor
  rw [hrounds] at hallowed
  obtain ⟨hash, address, hp, ha, hready⟩ := hfor
  rw [hready, verify_eq_verify_ready hallowed hp ha]

/-- Rounds that are set before any template, a second template, and a refusal of each kind. -/
def Engine.switchingCalls : List Call :=
  [.setRounds 300, .prepare (.replicate 32 1) (.replicate 32 2),
    .search (.replicate 140 0) (.replicate 32 255) ⟨5, 5⟩, .prepare [] [], .setRounds 5,
    .prepare (.replicate 40 3) (.replicate 32 4), .forTemplate [] [] 256]

theorem verify_run_switchingCalls :
    preparedTemplate? (fresh.history switchingCalls) =
        some (.replicate 40 3, .replicate 32 4) ∧
      acceptedRounds (fresh.history switchingCalls) = 300 ∧
      (fresh.run switchingCalls).verify (.replicate 140 0) 7 (.replicate 32 255) =
        verify (.replicate 40 3) (.replicate 32 4) 300 (.replicate 140 0) 7
          (.replicate 32 255) := by
  have hfirst (e : Engine) : e.perform (.prepare (.replicate 32 1) (.replicate 32 2)) =
      (ready (.replicate 32 1) (.replicate 32 2) e.rounds, .done) := perform_prepare rfl rfl e
  have hsecond (e : Engine) : e.perform (.prepare (.replicate 40 3) (.replicate 32 4)) =
      (ready (.replicate 32 3) (.replicate 32 4) e.rounds, .done) := perform_prepare rfl rfl e
  have htemplate : preparedTemplate? (fresh.history switchingCalls) =
      some (.replicate 40 3, .replicate 32 4) := by
    simp only [switchingCalls, history, hfirst, hsecond]
    rfl
  have hrounds : acceptedRounds (fresh.history switchingCalls) = 300 := by
    simp only [switchingCalls, history, hfirst, hsecond]
    rfl
  exact ⟨htemplate, hrounds, verify_run switchingCalls (.replicate 40 3) (.replicate 32 4) 300
    htemplate hrounds (.replicate 140 0) 7 (.replicate 32 255)⟩

end Padwork
