import Padwork.Proofs.Mining.Construction
import Padwork.Proofs.Mining.Progress

/-!
# Mining agrees with single checks

A miner works batch by batch on one engine that it keeps, a single check builds an
engine of its own. What a run says about its range is still what single checks of
the nonces would have said, whatever the batches and whenever the run is stopped.
-/
namespace Padwork
open Parameters Mining

variable {s : Settings} {previousHash minerAddress header target : Bytes}
  {hash address bound : Bytes32} {range : NonceRange}

/-- What the end of a run says about its range, with the count reported last, in terms of the
results of single checks. -/
def Mining.Outcome.Confirmed (check : UInt64 → Except Engine.Error Verification)
    (range : NonceRange) (hashes : UInt64) : Outcome → Prop
  | .found solution =>
    range.start ≤ solution.nonce ∧ solution.nonce < range.stop ∧
      check solution.nonce = .ok ⟨solution.digest, true⟩ ∧
      ∀ nonce, range.start ≤ nonce → nonce < solution.nonce →
        ∃ digest, check nonce = .ok ⟨digest, false⟩
  | .exhausted =>
    ∀ nonce, range.start ≤ nonce → nonce < range.stop →
      ∃ digest, check nonce = .ok ⟨digest, false⟩
  | .stopped =>
    ∀ nonce, range.start ≤ nonce → nonce.toNat < range.start.toNat + hashes.toNat →
      ∃ digest, check nonce = .ok ⟨digest, false⟩

/-- A check that looks at digests refutes the nonces of a barren stretch. -/
theorem Engine.Barren.refuted {e : Engine} {start stop : Nat}
    {check : UInt64 → Except Engine.Error Verification}
    (hcheck : ∀ nonce, check nonce =
      .ok ⟨e.digest header nonce, meets (e.digest header nonce) bound⟩)
    (h : e.Barren header bound start stop) {nonce : UInt64} (hstart : start ≤ nonce.toNat)
    (hstop : nonce.toNat < stop) : ∃ digest, check nonce = .ok ⟨digest, false⟩ := by
  refine ⟨e.digest header nonce, ?_⟩
  rw [hcheck, h nonce hstart hstop]

theorem Mining.Outcome.Holds.confirmed {e : Engine} {hashes : UInt64} {outcome : Outcome}
    {check : UInt64 → Except Engine.Error Verification}
    (hcheck : ∀ nonce, check nonce =
      .ok ⟨e.digest header nonce, meets (e.digest header nonce) bound⟩)
    (h : outcome.Holds e header bound range hashes) : outcome.Confirmed check range hashes := by
  cases outcome with
  | found solution =>
    have hvalid : check solution.nonce = .ok ⟨solution.digest, true⟩ := by
      rw [hcheck, ← h.digest_eq, h.meets_bound]
    refine ⟨UInt64.le_iff_toNat_le.mpr h.start_le, UInt64.lt_iff_toNat_lt.mpr h.lt_stop,
      hvalid, ?_⟩
    intro nonce hstart hlt
    exact h.barren.refuted hcheck (UInt64.le_iff_toNat_le.mp hstart)
      (UInt64.lt_iff_toNat_lt.mp hlt)
  | exhausted =>
    intro nonce hstart hstop
    exact Engine.Barren.refuted hcheck h (UInt64.le_iff_toNat_le.mp hstart)
      (UInt64.lt_iff_toNat_lt.mp hstop)
  | stopped =>
    intro nonce hstart hstop
    exact Engine.Barren.refuted hcheck h (UInt64.le_iff_toNat_le.mp hstart) hstop

/-- With valid settings, threads that can be started and a usable template, header and target, there
is a miner, each run of it ends without an error, and single checks confirm what the end of the run
says. -/
theorem mine_agrees (machine : Machine) (s : Settings)
    (previousHash minerAddress header target : Bytes) (range : NonceRange) (signal : Signal)
    (hpool : machine.Starts s.threads) (hs : s.validate = .ok ())
    (hp : 32 ≤ previousHash.length) (ha : 32 ≤ minerAddress.length)
    (hh : header.length = 140) (ht : 32 ≤ target.length) :
    ∃ m, Miner.ofSettings machine s previousHash minerAddress = .ok m ∧
      ∃ outcome, (m.mine header target range signal).result = .ok outcome ∧
        outcome.Confirmed
          (fun nonce => verify previousHash minerAddress s.rounds header nonce target)
          range (m.mine header target range signal).hashes := by
  have hfault := Settings.validate_eq_ok_iff.mp hs
  have hrounds := (Settings.fault?_eq_none_iff.mp hfault).1
  obtain ⟨hash, hhash, -⟩ := Engine.exists_leading .previousHash hp
  obtain ⟨address, haddress, -⟩ := Engine.exists_leading .minerAddress ha
  obtain ⟨bound, hbound, -⟩ := Engine.exists_leading .target ht
  obtain ⟨m, hm, hengine, -⟩ := Miner.ofSettings_of_leading hpool hfault hhash haddress
  have hattempt : m.engine.checkAttempt header target = .ok bound := by
    rw [hengine]
    exact Engine.checkAttempt_of_leading rfl hh hbound
  obtain ⟨outcome, hresult, hholds⟩ := m.mine_spec range signal hattempt
  refine ⟨m, hm, outcome, hresult, hholds.confirmed ?_⟩
  intro nonce
  rw [hengine]
  exact verify_of_leading hrounds hhash haddress hh hbound nonce

theorem mine_agrees_default :
    Machine.single.Starts 1 ∧ (Settings.default .single).validate = .ok () ∧
      32 ≤ (List.replicate 32 (0 : UInt8)).length ∧
      (List.replicate 140 (0 : UInt8)).length = 140 ∧
      ∃ m, Miner.ofSettings .single (.default .single) (List.replicate 32 0)
          (List.replicate 32 0) = .ok m ∧
        ∃ outcome,
          (m.mine (List.replicate 140 0) (List.replicate 32 0) ⟨5, 250005⟩ (some 1)).result =
            .ok outcome ∧
          outcome.Confirmed
            (fun nonce => verify (List.replicate 32 0) (List.replicate 32 0) 512
              (List.replicate 140 0) nonce (List.replicate 32 0))
            ⟨5, 250005⟩
            (m.mine (List.replicate 140 0) (List.replicate 32 0) ⟨5, 250005⟩ (some 1)).hashes := by
  have hpool := Machine.single_starts 1
  have hvalid := Settings.validate_default .single
  have hlength : 32 ≤ (List.replicate 32 (0 : UInt8)).length := by simp
  have hheader : (List.replicate 140 (0 : UInt8)).length = 140 := by simp
  exact ⟨hpool, hvalid, hlength, hheader, mine_agrees .single (.default .single) _ _ _ _
    ⟨5, 250005⟩ (some 1) hpool hvalid hlength hlength hheader hlength⟩

end Padwork
