import Padwork.Proofs.Engine.Accepted
import Padwork.Proofs.Sha3.Digest
import Padwork.Proofs.Work.Function

/-!
# Verification computes the work function

The engine for a template holds all chunks of its seed, and a round looks up the one
that its state points to. So the digest of a nonce is the work function, and a nonce
is valid when its digest is at most the target, both read as numbers.
-/
namespace Padwork
open Parameters Fips202

theorem toList_deriveSeed (hash address : Bytes32) :
    (deriveSeed hash address).toList = sha3OfBytes (hash.toList ++ address.toList) := by
  rw [deriveSeed, Sha3.toList_hash]

theorem toList_expandChunk (seed : Bytes32) (index : UInt64) :
    (expandChunk seed index).toList = Work.chunk seed.toList index.toNat := by
  rw [expandChunk, Sha3.toList_hash, toList_littleEndian, Work.chunk]

namespace Scratchpad

theorem toList_chunks_ofSeed (seed : Bytes32) (i : Fin chunkCount) :
    ((ofSeed seed).chunks.get i).toList = Work.chunk seed.toList i.val := by
  rw [chunks_ofSeed, toList_expandChunk, toNat_ofNat_index]

theorem val_placeOf (state : Bytes32) : (placeOf state).val = Work.place state.toList := by
  have htake : state.toList.take 4 = [state[0], state[1], state[2], state[3]] := by
    apply List.ext_getElem
    · simp
    · intro i _ hi
      simp only [List.length_cons, List.length_nil] at hi
      interval_cases i <;> simp
  rw [placeOf, val_index, toNat_wordOfBytes, Work.place, htake]
  simp [ofLittleEndian, Nat.ofDigits_cons]

theorem toList_step (seed state : Bytes32) :
    ((ofSeed seed).step state).toList = sha3OfBytes
      (state.toList ++ Work.chunk seed.toList (Work.place state.toList)) := by
  rw [step, Sha3.toList_hash, toList_chunks_ofSeed, val_placeOf]

/-- Rounds may be counted from the front or from the back. -/
theorem rounds_succ (p : Scratchpad) (n : Nat) (state : Bytes32) :
    p.rounds (n + 1) state = p.step (p.rounds n state) := by
  induction n generalizing state with
  | zero => rfl
  | succ n ih => exact ih (p.step state)

theorem toList_rounds (seed : Bytes32) (header : Bytes) (nonce : UInt64) (n : Nat) :
    ((ofSeed seed).rounds n (Sha3.hashConcat header (littleEndian nonce).toList)).toList =
      Work.state seed.toList header nonce.toNat n := by
  induction n with
  | zero =>
    rw [rounds, Sha3.hashConcat_eq_hash_append, Sha3.toList_hash, toList_littleEndian, Work.state]
  | succ n ih => rw [rounds_succ, toList_step, ih, Work.state]

end Scratchpad

theorem Engine.toList_digest_ready {previousHash minerAddress : Bytes} {hash address : Bytes32}
    (hp : hash.toList = previousHash.take 32) (ha : address.toList = minerAddress.take 32)
    (rounds : UInt64) (header : Bytes) (nonce : UInt64) :
    ((ready hash address rounds).digest header nonce).toList =
      Work.digest previousHash minerAddress rounds.toNat header nonce.toNat := by
  have hseed : (deriveSeed hash address).toList = Work.seed previousHash minerAddress := by
    rw [toList_deriveSeed, hp, ha, Work.seed]
  rw [digest, ready, Scratchpad.mix, Sha3.toList_hash, Scratchpad.toList_rounds, hseed, Work.digest]

theorem meets_iff (digest target : Bytes32) :
    meets digest target = true ↔ ofBigEndian digest.toList ≤ ofBigEndian target.toList := by
  rw [meets, decide_eq_true_iff, Bytes32.le_iff_ofBigEndian_le]

/-- Each digest meets the highest target. -/
theorem meets_highest {target : Bytes32} (h : target.toList = List.replicate 32 0xFF)
    (digest : Bytes32) : meets digest target = true := by
  have hhighest : ofBigEndian (List.replicate 32 0xFF) = 256 ^ 32 - 1 := by decide
  have hlt := ofBigEndian_lt digest.toList
  rw [Vector.length_toList] at hlt
  rw [meets_iff, h, hhighest]
  exact Nat.le_sub_one_of_lt hlt

/-- With a usable template, number of rounds, header and target, a nonce has the digest of the
work function, and is valid when this is at most the target. -/
theorem verify_eq_work (previousHash minerAddress : Bytes) (rounds : UInt64) (header : Bytes)
    (nonce : UInt64) (target : Bytes) (hp : 32 ≤ previousHash.length)
    (ha : 32 ≤ minerAddress.length) (hr : 256 ≤ rounds.toNat ∧ rounds.toNat ≤ 2048)
    (hh : header.length = 140) (ht : 32 ≤ target.length) :
    ∃ result, verify previousHash minerAddress rounds header nonce target = .ok result ∧
      result.digest.toList =
        Work.digest previousHash minerAddress rounds.toNat header nonce.toNat ∧
      (result.valid = true ↔
        ofBigEndian (Work.digest previousHash minerAddress rounds.toNat header nonce.toNat) ≤
          ofBigEndian (target.take 32)) := by
  obtain ⟨hash, hhash, hash_eq⟩ := Engine.exists_leading .previousHash hp
  obtain ⟨address, haddress, address_eq⟩ := Engine.exists_leading .minerAddress ha
  obtain ⟨bound, hbound, bound_eq⟩ := Engine.exists_leading .target ht
  have hrounds : RoundsAllowed rounds :=
    ⟨UInt64.le_iff_toNat_le.mpr hr.1, UInt64.le_iff_toNat_le.mpr hr.2⟩
  have hdigest := Engine.toList_digest_ready hash_eq address_eq rounds header nonce
  refine ⟨_, verify_of_leading hrounds hhash haddress hh hbound nonce, hdigest, ?_⟩
  rw [meets_iff, hdigest, bound_eq]

theorem verify_eq_work_highest :
    32 ≤ (List.replicate 32 (0 : UInt8)).length ∧
      (256 ≤ (256 : UInt64).toNat ∧ (256 : UInt64).toNat ≤ 2048) ∧
      (List.replicate 140 (0 : UInt8)).length = 140 ∧
      32 ≤ (List.replicate 32 (255 : UInt8)).length ∧
      ∃ result, verify (List.replicate 32 0) (List.replicate 32 0) 256 (List.replicate 140 0) 0
          (List.replicate 32 255) = .ok result ∧
        result.digest.toList = Work.digest (List.replicate 32 0) (List.replicate 32 0) 256
          (List.replicate 140 0) 0 ∧
        result.valid = true := by
  have hlength (b : UInt8) : 32 ≤ (List.replicate 32 b).length := by simp
  have hrounds : 256 ≤ (256 : UInt64).toNat ∧ (256 : UInt64).toNat ≤ 2048 := by decide
  have hheader : (List.replicate 140 (0 : UInt8)).length = 140 := by simp
  obtain ⟨result, hverify, hdigest, hvalid⟩ := verify_eq_work (List.replicate 32 0)
    (List.replicate 32 0) 256 (List.replicate 140 0) 0 (List.replicate 32 255) (hlength 0)
    (hlength 0) hrounds hheader (hlength 255)
  refine ⟨hlength 0, hrounds, hheader, hlength 255, result, hverify, hdigest, hvalid.mpr ?_⟩
  have hhighest : ofBigEndian ((List.replicate 32 255).take 32) = 256 ^ 32 - 1 := by decide
  have hlt := ofBigEndian_lt result.digest.toList
  rw [Vector.length_toList, hdigest] at hlt
  rw [hhighest]
  exact Nat.le_sub_one_of_lt hlt

end Padwork
