import Mathlib.Logic.Relation
import Padwork.Proofs.Sha3.History

/-!
# The ranges of a hasher's buffer

A hasher as plain data is a state, a block and a count, and nothing but its use keeps the
count below the size of a block. Here each range of the buffer and of the data is looked
up when it is used, and where one does not lie within its bytes there is no result. A
hasher that was fed in any way never comes to such a place: it holds what its bytes leave
behind their full blocks, each pass over further data takes at least one byte of it, and
the passes end with the hasher of `update`.
-/
namespace Padwork.Sha3
open Parameters
open Relation (ReflTransGen)

variable {h : Hasher} {fed data rest : Bytes}

/-! ## What a hasher keeps of its bytes -/

def fullBlocks (bytes : Bytes) : List Block :=
  if h : rate ≤ bytes.length then
    ⟨(bytes.take rate).toArray, by simp [h]⟩ :: fullBlocks (bytes.drop rate)
  else []
termination_by bytes.length
decreasing_by
  rw [List.length_drop]
  have hrate : 0 < rate := by decide
  omega

theorem fullBlocks_append (blocks : List Block) (hrest : rest.length < rate) :
    fullBlocks (bytesOf blocks ++ rest) = blocks := by
  induction blocks with
  | nil => rw [bytesOf_nil, List.nil_append, fullBlocks, dif_neg (Nat.not_le.mpr hrest)]
  | cons b blocks ih =>
    have htake : (b.toList ++ (bytesOf blocks ++ rest)).take rate = b.toList :=
      List.take_left' b.length_toList
    have hdrop : (b.toList ++ (bytesOf blocks ++ rest)).drop rate = bytesOf blocks ++ rest :=
      List.drop_left' b.length_toList
    have hlength : rate ≤ (b.toList ++ (bytesOf blocks ++ rest)).length := by
      rw [List.length_append, b.length_toList]
      exact Nat.le_add_right _ _
    rw [bytesOf_cons, List.append_assoc, fullBlocks, dif_pos hlength, hdrop, ih]
    congr 1
    exact Vector.toList_inj.mp htake

/-- The full blocks of the bytes are absorbed, and the bytes behind them stand at the front of the
buffer. -/
structure Hasher.Keeps (h : Hasher) (fed : Bytes) : Prop where
  count_le : h.buffer.count ≤ 135
  count_eq : h.buffer.count = fed.length % 136
  front_eq : h.buffer.block.toList.take h.buffer.count =
    fed.drop (fed.length - h.buffer.count)
  state_eq : h.state = (fullBlocks fed).foldl absorb .zero

theorem Hasher.Holds.keeps (hold : h.Holds fed) : h.Keeps fed := by
  obtain ⟨blocks, hbytes, hstate⟩ := hold
  have hroom := h.buffer.room
  have hlength := congrArg List.length hbytes
  rw [List.length_append, length_bytesOf, Buffer.length_bytes] at hlength
  refine ⟨Nat.le_pred_of_lt hroom, ?_, ?_, ?_⟩
  · rw [← hlength, Nat.mul_add_mod, Nat.mod_eq_of_lt hroom]
  · rw [← hlength, Nat.add_sub_cancel, ← hbytes, List.drop_left' (length_bytesOf blocks)]
    rfl
  · rw [← hbytes, fullBlocks_append blocks (by rwa [Buffer.length_bytes]), hstate]

/-! ## Ranges that are looked up -/

def Block.blank : Block := .replicate rate 0

def difference? (a b : Nat) : Option Nat := if b ≤ a then some (a - b) else none

def slice? (bytes : Bytes) (start stop : Nat) : Option Bytes :=
  if start ≤ stop ∧ stop ≤ bytes.length then some ((bytes.take stop).drop start) else none

/-- Copies bytes over a range of a block. They have to be as many as the range has. -/
def copy? (b : Block) (start stop : Nat) (bytes : Bytes) : Option Block :=
  if h : start ≤ stop ∧ stop ≤ rate ∧ bytes.length = stop - start then
    some (b.write start bytes (by omega))
  else none

def set? (b : Block) (place : Nat) (byte : UInt8) : Option Block :=
  if h : place < rate then some (b.set place byte h) else none

theorem difference?_eq {a b : Nat} (h : b ≤ a) : difference? a b = some (a - b) := if_pos h

theorem slice?_eq {bytes : Bytes} {start stop : Nat} (hstart : start ≤ stop)
    (hstop : stop ≤ bytes.length) :
    slice? bytes start stop = some ((bytes.take stop).drop start) := if_pos ⟨hstart, hstop⟩

theorem copy?_eq {b : Block} {start : Nat} {bytes : Bytes} (h : start + bytes.length ≤ rate) :
    copy? b start (start + bytes.length) bytes = some (b.write start bytes h) :=
  dif_pos ⟨Nat.le_add_right _ _, h, (Nat.add_sub_cancel_left _ _).symm⟩

theorem set?_eq {b : Block} {place : Nat} {byte : UInt8} (h : place < rate) :
    set? b place byte = some (b.set place byte h) := dif_pos h

/-! ## Plain hashers -/

/-- A hasher as plain data. The count may be any number. -/
structure Plain where
  state : Keccak.State
  block : Block
  count : Nat

def Hasher.plain (h : Hasher) : Plain := ⟨h.state, h.buffer.block, h.buffer.count⟩

namespace Plain

/-- One pass over the data: as many bytes as fit are copied behind those that wait, and a block
that is full then is absorbed. -/
def pass? (p : Plain) (data : Bytes) : Option (Plain × Bytes) := do
  let free ← difference? rate p.count
  let taken := min free data.length
  let part ← slice? data 0 taken
  let block ← copy? p.block p.count (p.count + taken) part
  let rest ← slice? data taken data.length
  if p.count + taken = rate then return (⟨absorb p.state block, block, 0⟩, rest)
  else return (⟨p.state, block, p.count + taken⟩, rest)

def digest? (p : Plain) : Option Bytes32 := do
  let front ← slice? p.block.toList 0 p.count
  let copied ← copy? .blank 0 p.count front
  let marked ← set? copied p.count domain
  let byte ← marked[rate - 1]?
  let last ← set? marked (rate - 1) (byte ||| 0x80)
  return squeeze (absorb p.state last)

/-- One pass of the loop, which goes on while there are data. -/
def Pass (now next : Plain × Bytes) : Prop := now.2 ≠ [] ∧ now.1.pass? now.2 = some next

end Plain

/-- The hasher after one pass over the data. -/
def Hasher.pass (h : Hasher) (data : Bytes) : Hasher :=
  ⟨(h.buffer.fill data).block?.toList.foldl absorb h.state, (h.buffer.fill data).buffer⟩

theorem Plain.pass?_plain (h : Hasher) (data : Bytes) :
    h.plain.pass? data = some ((h.pass data).plain, (h.buffer.fill data).rest) := by
  have hroom := Nat.le_of_lt h.buffer.room
  have hmin := Nat.min_le_right (rate - h.buffer.count) data.length
  have hlength : (data.take (rate - h.buffer.count)).length =
      min (rate - h.buffer.count) data.length := List.length_take
  have hpart : slice? data 0 (min (rate - h.buffer.count) data.length) =
      some (data.take (rate - h.buffer.count)) := by
    rw [slice?_eq (Nat.zero_le _) hmin, List.drop_zero, ← List.take_eq_take_min]
  have hrest : slice? data (min (rate - h.buffer.count) data.length) data.length =
      some (data.drop (rate - h.buffer.count)) := by
    rw [slice?_eq hmin (Nat.le_refl _), List.take_length, ← List.drop_eq_drop_min]
  have hfit : h.buffer.count + (data.take (rate - h.buffer.count)).length ≤ rate := by omega
  have hcopy := copy?_eq (b := h.buffer.block) hfit
  rw [← hlength] at hpart hrest
  simp only [pass?, Hasher.plain, Hasher.pass, Buffer.fill, difference?_eq hroom, ← hlength, hpart,
    hrest, hcopy, Option.bind_eq_bind, Option.bind_some, Option.pure_def]
  split
  · simp only [Option.toList_some, List.foldl_cons, List.foldl_nil]
  · simp only [Option.toList_none, List.foldl_nil]

theorem Hasher.update_of_ne_nil (h : Hasher) (hdata : data ≠ []) :
    h.update data = (h.pass data).update (h.buffer.fill data).rest := by
  cases data with
  | nil => exact absurd rfl hdata
  | cons byte tail => simp only [update, Buffer.push, pass, List.foldl_append]

namespace Plain

/-- The passes over any data end with the hasher that has taken it in. -/
theorem passes_update (h : Hasher) (data : Bytes) :
    ReflTransGen Pass (h.plain, data) ((h.update data).plain, []) := by
  induction hlength : data.length using Nat.strongRecOn generalizing h data with
  | ind n ih =>
    by_cases hdata : data = []
    · rw [hdata, Hasher.update_nil]
    · have hless := h.buffer.length_rest_fill_lt hdata
      rw [h.update_of_ne_nil hdata]
      exact .head ⟨hdata, pass?_plain h data⟩ (ih _ (hlength ▸ hless) _ _ rfl)

/-- What the passes come to is plain data of a hasher, with what it needs to become the same in the
end. -/
theorem exists_of_passes {p : Plain} (hpasses : ReflTransGen Pass (h.plain, data) (p, rest)) :
    ∃ now : Hasher, p = now.plain ∧ now.update rest = h.update data := by
  generalize hlast : (p, rest) = last at hpasses
  induction hpasses generalizing p rest with
  | refl =>
    cases hlast
    exact ⟨h, rfl, rfl⟩
  | @tail middle last _ hpass ih =>
    obtain ⟨before, hbefore, hsame⟩ := ih rfl
    obtain ⟨hne, hnext⟩ := hpass
    rw [hbefore, pass?_plain, ← hlast] at hnext
    cases hnext
    exact ⟨before.pass middle.2, rfl, by rw [← hsame, before.update_of_ne_nil hne]⟩

theorem set_write_eq_padded (b : Buffer) (hfit : 0 + b.bytes.length ≤ rate) :
    (Block.blank.write 0 b.bytes hfit).set b.count domain b.room = b.padded := by
  have hroom := b.room
  have hzeros : rate - b.count = rate - 1 - b.count + 1 := by omega
  apply Vector.toList_inj.mp
  rw [Vector.toList_set, Block.toList_write, Buffer.toList_padded, Block.blank,
    Vector.toList_replicate, List.take_zero, List.nil_append, List.drop_replicate, Nat.zero_add,
    b.length_bytes, hzeros, List.replicate_succ,
    List.set_append_right _ _ (Nat.le_of_eq b.length_bytes), b.length_bytes, Nat.sub_self,
    List.set_cons_zero]

theorem digest?_plain (h : Hasher) : h.plain.digest? = some h.digest := by
  have hroom := h.buffer.room
  have hfront : slice? h.buffer.block.toList 0 h.buffer.count = some h.buffer.bytes := by
    rw [slice?_eq (Nat.zero_le _) (by rw [Vector.length_toList]; exact Nat.le_of_lt hroom)]
    rfl
  have hfit : 0 + h.buffer.bytes.length ≤ rate := by
    rw [Nat.zero_add, Buffer.length_bytes]
    exact Nat.le_of_lt hroom
  have hcopy := copy?_eq (b := .blank) hfit
  rw [Nat.zero_add, Buffer.length_bytes] at hcopy
  have hlast : rate - 1 < rate := by decide
  simp only [digest?, Hasher.plain, hfront, hcopy, set?_eq hroom, set?_eq hlast,
    set_write_eq_padded, Vector.getElem?_eq_getElem hlast, Option.bind_eq_bind, Option.bind_some,
    Option.pure_def, Hasher.digest, Buffer.closed]

end Plain

theorem exists_holds_of_session {ι : Type} [DecidableEq ι] {steps : List (Step ι)} {name : ι}
    (hreached : session steps name = some h) :
    ∃ pieces, pieces? name steps.reverse = some pieces ∧ h.Holds pieces.flatten := by
  have hfollows := follows_session steps name
  rw [hreached] at hfollows
  generalize pieces? name steps.reverse = pieces? at hfollows ⊢
  cases hfollows with
  | some hold => exact ⟨_, rfl, hold⟩

/-- A hasher of any session keeps of its history what is behind the full blocks, before and after
it takes in further data. On the way each pass finds its ranges within their bytes and takes at
least one byte, so the passes end, and the digest finds its ranges too. -/
theorem ranges_hold {ι : Type} [DecidableEq ι] {steps : List (Step ι)} {name : ι} {h : Hasher}
    (hreached : session steps name = some h) :
    ∃ pieces, pieces? name steps.reverse = some pieces ∧ h.Keeps pieces.flatten ∧
      h.plain.digest? = some h.digest ∧
      ∀ data, (h.update data).Keeps (pieces.flatten ++ data) ∧
        ReflTransGen Plain.Pass (h.plain, data) ((h.update data).plain, []) ∧
        ∀ p rest, ReflTransGen Plain.Pass (h.plain, data) (p, rest) →
          p.count ≤ 135 ∧ (rest ≠ [] →
            ∃ next left, p.pass? rest = some (next, left) ∧ left.length < rest.length) := by
  obtain ⟨pieces, hpieces, hold⟩ := exists_holds_of_session hreached
  refine ⟨pieces, hpieces, hold.keeps, Plain.digest?_plain h, fun data => ?_⟩
  refine ⟨(hold.update data).keeps, Plain.passes_update h data, fun p rest hpasses => ?_⟩
  obtain ⟨now, rfl, -⟩ := Plain.exists_of_passes hpasses
  refine ⟨Nat.le_pred_of_lt now.buffer.room, fun hrest => ?_⟩
  exact ⟨_, _, Plain.pass?_plain now rest, now.buffer.length_rest_fill_lt hrest⟩

/-- A copy of a hasher with one byte to spare, which the source has taken in since. -/
def spareSteps : List (Step Bool) :=
  [.fresh false, .update false (.replicate 271 0xA3), .clone true false, .update false [1]]

/-- With one byte to spare the domain byte is the last of its block. The first of three further
bytes fills the block, and the other two wait. -/
theorem ranges_hold_spare :
    ∃ h : Hasher, session spareSteps true = some h ∧ h.buffer.count = 135 ∧
      h.plain.digest? = some h.digest ∧ (h.update [1, 2, 3]).buffer.count = 2 ∧
      ReflTransGen Plain.Pass (h.plain, [1, 2, 3]) ((h.update [1, 2, 3]).plain, []) ∧
      ∃ next left, h.plain.pass? [1, 2, 3] = some (next, left) ∧ left.length < 3 := by
  have hreached : session spareSteps true =
      some (Hasher.empty.update (.replicate 271 0xA3)) := rfl
  have hpieces : pieces? true spareSteps.reverse = some [.replicate 271 0xA3] := rfl
  obtain ⟨pieces, hsame, hkeeps, hdigest, hupdate⟩ := ranges_hold hreached
  rw [hpieces] at hsame
  cases hsame
  obtain ⟨hmore, hends, hpasses⟩ := hupdate [1, 2, 3]
  refine ⟨_, hreached, ?_, hdigest, ?_, hends, (hpasses _ _ .refl).2 (by decide)⟩
  · rw [hkeeps.count_eq, List.flatten_singleton, List.length_replicate]
  · rw [hmore.count_eq, List.flatten_singleton, List.length_append, List.length_replicate]
    rfl

/-- A full buffer has no place for the domain byte. -/
example : (Plain.mk .zero .blank 136).digest? = none := by decide +kernel

end Padwork.Sha3
