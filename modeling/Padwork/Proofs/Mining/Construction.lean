import Padwork.Mining.Miner
import Padwork.Proofs.Engine.Refusal

/-!
# What a miner is made of

Settings and a template give a miner only when both are usable. Its engine is then
the one that is ready for the template, so a header and a target of the right size
are all that its runs need.
-/
namespace Padwork
open Engine Mining

variable {machine : Machine} {s : Settings} {previousHash minerAddress header target : Bytes}
  {hash address : Bytes32}

namespace Miner

/-- With valid settings a miner is built of its threads and then of its template. -/
theorem ofSettings_of_valid (hs : s.fault? = none) :
    ofSettings machine s previousHash minerAddress =
      match machine.poolError? s.threads with
      | some error => .error (.pool error)
      | none =>
        match Engine.forTemplate previousHash minerAddress s.rounds with
        | .error error => .error (.engine error)
        | .ok engine => .ok ⟨engine, s.batchSize,
            UInt64.pos_iff_ne_zero.mpr (Settings.fault?_eq_none_iff.mp hs).2.2⟩ := by
  unfold ofSettings
  split
  · next fault hfault =>
    rw [hs] at hfault
    cases hfault
  · rfl

/-- When its threads can be started, valid settings and a usable template give a miner with the
engine for the template. -/
theorem ofSettings_of_leading (hpool : machine.Starts s.threads) (hs : s.fault? = none)
    (hp : leading .previousHash previousHash = .ok hash)
    (ha : leading .minerAddress minerAddress = .ok address) :
    ∃ m, ofSettings machine s previousHash minerAddress = .ok m ∧
      m.engine = ready hash address s.rounds ∧ m.batchSize = s.batchSize := by
  have hrounds := (Settings.fault?_eq_none_iff.mp hs).1
  rw [Machine.Starts] at hpool
  rw [ofSettings_of_valid hs, hpool, forTemplate_of_leading hrounds hp ha]
  exact ⟨_, rfl, rfl, rfl⟩

theorem exists_ofSettings (hpool : machine.Starts s.threads) (hs : s.validate = .ok ())
    (hp : 32 ≤ previousHash.length) (ha : 32 ≤ minerAddress.length) :
    ∃ m, ofSettings machine s previousHash minerAddress = .ok m := by
  obtain ⟨hash, hhash, -⟩ := exists_leading .previousHash hp
  obtain ⟨address, haddress, -⟩ := exists_leading .minerAddress ha
  obtain ⟨m, hm, -⟩ := ofSettings_of_leading hpool (Settings.validate_eq_ok_iff.mp hs) hhash
    haddress
  exact ⟨m, hm⟩

theorem exists_ofSettings_default (hp : 32 ≤ previousHash.length) (ha : 32 ≤ minerAddress.length) :
    ∃ m, ofSettings .single (.default .single) previousHash minerAddress = .ok m :=
  exists_ofSettings (Machine.single_starts _) (Settings.validate_default _) hp ha

/-- Faulty settings are reported whatever the template is. -/
theorem ofSettings_of_fault {fault : Settings.Fault} (hs : s.fault? = some fault) :
    ofSettings machine s previousHash minerAddress = .error (.settings (.invalid fault)) := by
  unfold ofSettings
  split
  · next other hother =>
    rw [Option.some.inj (hs.symm.trans hother)]
  · next hnone =>
    rw [hs] at hnone
    cases hnone

theorem ofSettings_of_poolError {error : PoolError} (hs : s.fault? = none)
    (hpool : machine.poolError? s.threads = some error) :
    ofSettings machine s previousHash minerAddress = .error (.pool error) := by
  rw [ofSettings_of_valid hs, hpool]

/-- With valid settings and threads that can be started the first fault of the template is
reported. -/
theorem ofSettings_of_templateFault {error : Engine.Error} (hpool : machine.Starts s.threads)
    (hs : s.fault? = none) (h : templateFault? previousHash minerAddress = some error) :
    ofSettings machine s previousHash minerAddress = .error (.engine error) := by
  have hrounds := roundsFault?_eq_none_iff.mpr (Settings.fault?_eq_none_iff.mp hs).1
  have herror := errorOf?_forTemplate previousHash minerAddress s.rounds
  rw [hrounds, Option.none_or, h] at herror
  rw [Machine.Starts] at hpool
  rw [ofSettings_of_valid hs, hpool, eq_error_of_errorOf? herror]

theorem exists_ready_of_templateFault (hpool : machine.Starts s.threads) (hs : s.fault? = none)
    (h : templateFault? previousHash minerAddress = none) :
    ∃ m hash address, ofSettings machine s previousHash minerAddress = .ok m ∧
      leading .previousHash previousHash = .ok hash ∧
        leading .minerAddress minerAddress = .ok address ∧
          m.engine = ready hash address s.rounds ∧ m.batchSize = s.batchSize := by
  obtain ⟨hash, address, hp, ha⟩ := exists_leading_of_templateFault? h
  obtain ⟨m, hm, hengine, hbatch⟩ := ofSettings_of_leading hpool hs hp ha
  exact ⟨m, hash, address, hm, hp, ha, hengine, hbatch⟩

theorem exists_ready_of_ofSettings {m : Miner}
    (h : ofSettings machine s previousHash minerAddress = .ok m) :
    s.fault? = none ∧ ∃ hash address, leading .previousHash previousHash = .ok hash ∧
      leading .minerAddress minerAddress = .ok address ∧
        m.engine = ready hash address s.rounds ∧ m.batchSize = s.batchSize := by
  unfold ofSettings at h
  split at h
  · cases h
  · next hfault =>
    split at h
    · cases h
    split at h
    · cases h
    · next engine hengine =>
      obtain ⟨-, hash, address, hp, ha, hready⟩ := exists_ready_of_forTemplate hengine
      cases h
      exact ⟨hfault, hash, address, hp, ha, hready, rfl⟩

theorem initialized_of_ofSettings {m : Miner}
    (h : ofSettings machine s previousHash minerAddress = .ok m) : m.engine.initialized = true := by
  obtain ⟨-, hash, address, -, -, hengine, -⟩ := exists_ready_of_ofSettings h
  rw [hengine]
  rfl

/-- A miner accepts each header and target of the right size, and uses the leading bytes of the
target. -/
theorem exists_checkAttempt {m : Miner}
    (hm : ofSettings machine s previousHash minerAddress = .ok m)
    (hh : header.length = 140) (ht : 32 ≤ target.length) :
    ∃ bound, m.engine.checkAttempt header target = .ok bound ∧
      bound.toList = target.take 32 := by
  obtain ⟨-, hash, address, -, -, hengine, -⟩ := exists_ready_of_ofSettings hm
  obtain ⟨bound, hbound, hlist⟩ := exists_leading .target ht
  rw [hengine]
  exact ⟨bound, checkAttempt_of_leading rfl hh hbound, hlist⟩

theorem verify_of_ofSettings {m : Miner} {bound : Bytes32}
    (hm : ofSettings machine s previousHash minerAddress = .ok m)
    (hok : m.engine.checkAttempt header target = .ok bound) (nonce : UInt64) :
    verify previousHash minerAddress s.rounds header nonce target =
      .ok ⟨m.engine.digest header nonce, meets (m.engine.digest header nonce) bound⟩ := by
  obtain ⟨hfault, hash, address, hp, ha, hengine, -⟩ := exists_ready_of_ofSettings hm
  have hrounds := (Settings.fault?_eq_none_iff.mp hfault).1
  rw [verify_eq_verify_ready hrounds hp ha, ← hengine]
  exact verify_of_checkAttempt hok nonce

end Miner

end Padwork
